import Mathlib.Order.WellFounded
import PointsTo.Proofs.HierarchyOrder
import PointsTo.Proofs.Naming
import PointsTo.Proofs.StrictTables

/-!
# The search for a cycle, turn by turn

`checkAcyclic` searches by recursion, to a depth that is given. A machine has neither: it marks the classes,
and keeps on a stack the classes of the current path, each with the position of the supertype that it looks
at next (`Program.turn`). Nothing bounds the number of its turns, and it asks tables for positions that they
might not have. For every table of classes whose supertypes are there, the machine comes to an end, asks for
no position in vain, and answers what `checkAcyclic` answers. That answer is that there is no cycle, exactly
if no class is above itself (`checkAcyclic_exact`).

One lemma for each way in which the search goes on says where the machine then is (`Program.Leads`).
-/

namespace PointsTo

namespace Program

/-! ## The machine -/

/-- How far the machine is with a class. -/
inductive Mark where
  | unvisited
  | onPath
  | done
deriving DecidableEq

/-- A mark for each class, and the classes of the current path, the last one first, each with the position
of its next supertype. -/
structure Machine where
  marks : Array Mark
  stack : List (ClassId × Nat)

/-- What the machine does about the class on top of the rest of its stack. -/
def turn (p : Program) (marks : Array Mark) (c next : Nat) (rest : List (ClassId × Nat)) :
    Except Halt Machine := do
  let decl ← lookUp p.classes c
  match decl.supertypes[next]? with
  | none => pure ⟨← change marks c fun _ => .done, rest⟩
  | some sup =>
    match ← lookUp marks sup with
    | .onPath =>
      let above ← lookUp p.classes sup
      throw (.refused (.malformed (.cyclicHierarchy decl.name above.name)))
    | .unvisited => pure ⟨← change marks sup fun _ => .onPath, (sup, 0) :: (c, next + 1) :: rest⟩
    | .done => pure ⟨marks, (c, next + 1) :: rest⟩

/-- The marks when the stack is empty, for which the machine is given `n` turns. -/
def turns (p : Program) : (n : Nat) → Machine → Except Halt (Array Mark)
  | _, ⟨marks, []⟩ => pure marks
  | 0, ⟨_, _ :: _⟩ => throw .unfinished
  | n + 1, ⟨marks, (c, next) :: rest⟩ => do p.turns n (← p.turn marks c next rest)

/-- Search from a class if it has no mark yet. -/
def searchFrom (p : Program) (n : Nat) (marks : Array Mark) (root : ClassId) :
    Except Halt (Array Mark) := do
  match ← lookUp marks root with
  | .unvisited => p.turns n ⟨← change marks root fun _ => .onPath, [(root, 0)]⟩
  | _ => pure marks

/-- Search from each class in turn, from each with `n` turns. -/
def searchInTurns (p : Program) (n : Nat) : Except Halt Unit := do
  let _ ← (List.range p.classes.size).foldlM (p.searchFrom n)
    (Array.replicate p.classes.size Mark.unvisited)

/-- More turns change the answer only if there were too few. -/
theorem turns_orUnfinished (p : Program) {n m : Nat} (h : n ≤ m) (s : Machine) :
    OrUnfinished (p.turns n s) (p.turns m s) := by
  obtain ⟨marks, stack⟩ := s
  induction n generalizing m marks stack with
  | zero =>
    cases stack with
    | nil => cases m <;> exact Or.inr rfl
    | cons top rest => exact Or.inl rfl
  | succ n ih =>
    obtain ⟨m, rfl⟩ := Nat.exists_eq_add_of_le' (Nat.le_trans (Nat.le_add_left 1 n) h)
    cases stack with
    | nil => exact Or.inr rfl
    | cons top rest =>
      rw [turns, turns]
      apply OrUnfinished.bind (Or.inr rfl)
      intro s
      exact ih (Nat.le_of_succ_le_succ h) s.marks s.stack

theorem searchInTurns_orUnfinished (p : Program) {n m : Nat} (h : n ≤ m) :
    OrUnfinished (p.searchInTurns n) (p.searchInTurns m) := by
  apply OrUnfinished.bind
  · apply OrUnfinished.foldlM
    intro marks root
    apply OrUnfinished.bind (Or.inr rfl)
    intro mark
    cases mark with
    | unvisited =>
      apply OrUnfinished.bind (Or.inr rfl)
      intro marks
      exact p.turns_orUnfinished h _
    | onPath => exact Or.inr rfl
    | done => exact Or.inr rfl
  · intro _
    exact Or.inr rfl

/-! ## Its marks -/

/-- The mark of a class, by the path and the classes that are done with. -/
def markOf (path done : List ClassId) (c : ClassId) : Mark :=
  if c ∈ path then .onPath else if c ∈ done then .done else .unvisited

/-- The marks of all classes. -/
def marksOf (p : Program) (path done : List ClassId) : Array Mark :=
  tabulate p.classes.size (markOf path done)

variable {p : Program} {c sup next : Nat} {path done done' : List ClassId}
  {rest : List (ClassId × Nat)} {decl : ClassDecl}

theorem lookUp_marksOf (hc : c < p.classes.size) :
    lookUp (p.marksOf path done) c = .ok (markOf path done c) := lookUp_tabulate hc

/-- To be done with a class is to take it off the path. -/
theorem change_done (hc : c < p.classes.size) (hpath : c ∉ path) :
    change (p.marksOf (c :: path) done) c (fun _ => .done) = .ok (p.marksOf path (c :: done)) := by
  apply change_tabulate hc
  · simp [markOf, hpath]
  · intro d hd
    simp [markOf, hd]

theorem change_onPath (hsup : sup < p.classes.size) :
    change (p.marksOf path done) sup (fun _ => .onPath) = .ok (p.marksOf (sup :: path) done) := by
  apply change_tabulate hsup
  · simp [markOf]
  · intro d hd
    simp [markOf, hd]

/-! ## Where its turns lead -/

/-- The answer of the search, as that of the machine. -/
def refuse {α : Type} (x : Except Malformation α) : Except Halt α := answer (x.mapError .malformed)

theorem refuse_bind {α β : Type} {x : Except Malformation α} {f : α → Except Malformation β} :
    refuse (x >>= f) = refuse x >>= fun a => refuse (f a) := by
  cases x <;> rfl

/-- Some number of turns leads from `s` to what the search answers: if that is a list of classes, to the
state that belongs to it. -/
def Leads (p : Program) (s : Machine) (x : Except Malformation (List ClassId))
    (next : List ClassId → Machine) : Prop :=
  ∃ k, ∀ n, p.turns (n + k) s = refuse x >>= fun done => p.turns n (next done)

namespace Leads

variable {s : Machine} {x : Except Malformation (List ClassId)} {mid after : List ClassId → Machine}
  {f : List ClassId → Except Malformation (List ClassId)}

theorem pure (h : after done = s) : p.Leads s (.ok done) after := ⟨0, fun _ => h ▸ rfl⟩

/-- The turns of two searches, one after the other. -/
theorem bind (hx : p.Leads s x mid) (hf : ∀ done, x = .ok done → p.Leads (mid done) (f done) after) :
    p.Leads s (x >>= f) after := by
  obtain ⟨k, hk⟩ := hx
  cases x with
  | error e => exact ⟨k, hk⟩
  | ok done =>
    obtain ⟨j, hj⟩ := hf done rfl
    refine ⟨j + k, fun n => ?_⟩
    rw [← Nat.add_assoc, hk]
    exact hj n

/-- One turn, then those of a search. -/
theorem turn {marks : Array Mark} (hturn : p.turn marks c next rest = .ok s)
    (h : p.Leads s x after) : p.Leads ⟨marks, (c, next) :: rest⟩ x after := by
  obtain ⟨k, hk⟩ := h
  refine ⟨k + 1, fun n => ?_⟩
  show p.turns (n + k + 1) _ = _
  rw [turns, hturn, ← hk]
  rfl

/-- One turn that refuses. -/
theorem refused {marks : Array Mark} {e : Malformation}
    (hturn : p.turn marks c next rest = .error (.refused (.malformed e))) :
    p.Leads ⟨marks, (c, next) :: rest⟩ (.error e) after := by
  refine ⟨1, fun n => ?_⟩
  rw [turns, hturn]
  rfl

end Leads

theorem exists_class (hc : c < p.classes.size) : ∃ decl, p.class? c = some decl :=
  ⟨p.classes[c], Array.getElem?_eq_getElem hc⟩

/-- When all supertypes have been looked at, the class is done with. -/
theorem turn_last (hc : p.class? c = some decl) (hnone : decl.supertypes[next]? = none)
    (hpath : c ∉ path) : p.turn (p.marksOf (c :: path) done) c next rest =
      .ok ⟨p.marksOf path (c :: done), rest⟩ := by
  have hlt : c < p.classes.size := (Array.getElem?_eq_some_iff.1 hc).1
  simp only [turn, lookUp_eq hc, hnone, change_done hlt hpath, bind, Except.bind]
  rfl

/-- What a turn does about a supertype: it refuses a step back onto the path, passes over a class that is done
with, and goes on to another one. -/
theorem turn_supertype (hc : p.class? c = some decl) (hget : decl.supertypes[next]? = some sup)
    (hsup : sup < p.classes.size) : p.turn (p.marksOf path done) c next rest =
      if sup ∈ path then .error (.refused (.malformed (.cyclicHierarchy (p.className c) (p.className sup))))
      else if sup ∈ done then .ok ⟨p.marksOf path done, (c, next + 1) :: rest⟩
      else .ok ⟨p.marksOf (sup :: path) done, (sup, 0) :: (c, next + 1) :: rest⟩ := by
  obtain ⟨above, habove⟩ := exists_class hsup
  simp only [turn, lookUp_eq hc, hget, lookUp_marksOf hsup, markOf, bind, Except.bind]
  by_cases hon : sup ∈ path
  · simp only [if_pos hon, lookUp_eq habove, className_eq hc, className_eq habove]
    rfl
  · by_cases hdone : sup ∈ done
    · simp only [if_neg hon, if_pos hdone]
      rfl
    · simp only [if_neg hon, if_neg hdone, change_onPath hsup]
      rfl

/-- The machine looks at one supertype after the other, as the search does, and is then done with the
class. -/
theorem leads_foldlM {visit : List ClassId → ClassId → Except Malformation (List ClassId)}
    {sups : List ClassId} (hc : p.class? c = some decl) (hpath : c ∉ path)
    (hvisit : ∀ i sup, decl.supertypes[i]? = some sup → ∀ done,
      p.Leads ⟨p.marksOf (c :: path) done, (c, i) :: rest⟩ (visit done sup)
        fun done => ⟨p.marksOf (c :: path) done, (c, i + 1) :: rest⟩)
    (hsups : decl.supertypes.drop next = sups) (done : List ClassId) :
    p.Leads ⟨p.marksOf (c :: path) done, (c, next) :: rest⟩
      (sups.foldlM visit done >>= fun done => pure (c :: done))
      fun done => ⟨p.marksOf path done, rest⟩ := by
  induction sups generalizing next done with
  | nil =>
    have hnone : decl.supertypes[next]? = none :=
      List.getElem?_eq_none (List.drop_eq_nil_iff.1 hsups)
    exact .turn (turn_last hc hnone hpath) (.pure rfl)
  | cons sup sups ih =>
    have hget : decl.supertypes[next]? = some sup := by
      rw [← List.head?_drop, hsups, List.head?_cons]
    have hdrop : decl.supertypes.drop (next + 1) = sups := by
      rw [← List.tail_drop, hsups, List.tail_cons]
    rw [List.foldlM_cons, bind_assoc]
    exact (hvisit next sup hget done).bind fun done _ => ih hdrop done

theorem turns_nil (n : Nat) (marks : Array Mark) : p.turns n ⟨marks, []⟩ = .ok marks := by
  cases n <;> rfl

section

variable (hrange : ∀ c, ∀ sup ∈ p.supertypes c, sup < p.classes.size)

include hrange

/-- A search from a class leads the machine to where that class is off the path again. The path to it has no
repetition, so the depth that is left is never used up. -/
theorem leads_searchCycle {depth : Nat} (hdepth : p.classes.size ≤ depth + path.length)
    (hpath : (c :: path).Nodup) (hlt : ∀ d ∈ c :: path, d < p.classes.size) (done : List ClassId)
    (rest : List (ClassId × Nat)) :
    p.Leads ⟨p.marksOf (c :: path) done, (c, 0) :: rest⟩ (p.searchCycle depth path done c)
      fun done => ⟨p.marksOf path done, rest⟩ := by
  induction depth generalizing c path done rest with
  | zero =>
    have hlength := length_le_of_nodup hpath hlt
    rw [List.length_cons] at hlength
    omega
  | succ n ih =>
    obtain ⟨decl, hc⟩ := exists_class (hlt c List.mem_cons_self)
    have hsupertypes : p.supertypes c = decl.supertypes := by simp [supertypes, hc]
    rw [searchCycle, hsupertypes]
    apply leads_foldlM hc (List.nodup_cons.1 hpath).1 ?_ List.drop_zero
    intro i sup hget done
    have hsup : sup < p.classes.size := hrange c sup (hsupertypes ▸ List.mem_of_getElem? hget)
    have hturn := @turn_supertype p c sup i (c :: path) done rest decl hc hget hsup
    by_cases hcycle : sup ∈ c :: path
    · simp only [if_pos hcycle] at hturn ⊢
      exact .refused hturn
    rw [if_neg hcycle] at hturn ⊢
    by_cases hmet : sup ∈ done
    · rw [if_pos hmet] at hturn ⊢
      exact .turn hturn (.pure rfl)
    · rw [if_neg hmet] at hturn ⊢
      apply Leads.turn hturn
      apply ih
      · rw [List.length_cons]
        omega
      · exact List.nodup_cons.2 ⟨hcycle, hpath⟩
      · intro d hd
        rcases List.mem_cons.1 hd with rfl | hd
        · exact hsup
        · exact hlt d hd

/-- To search from a class that is done with changes nothing, from another it takes some number of turns. -/
theorem exists_searchFrom_eq (hc : c < p.classes.size) (done : List ClassId) :
    ∃ k, ∀ n ≥ k, p.searchFrom n (p.marksOf [] done) c =
      refuse (if c ∈ done then pure done else p.searchCycle p.classes.size [] done c) >>=
        fun done => .ok (p.marksOf [] done) := by
  by_cases hdone : c ∈ done
  · refine ⟨0, fun n _ => ?_⟩
    simp only [searchFrom, lookUp_marksOf hc, markOf, List.not_mem_nil, if_false, if_pos hdone]
    rfl
  · have hlt : ∀ d ∈ [c], d < p.classes.size := by simpa using hc
    have hdepth : p.classes.size ≤ p.classes.size + ([] : List ClassId).length := Nat.le_refl _
    obtain ⟨k, hk⟩ := leads_searchCycle hrange hdepth (List.pairwise_singleton _ c) hlt done []
    refine ⟨k, fun n hn => ?_⟩
    obtain ⟨j, rfl⟩ := Nat.exists_eq_add_of_le' hn
    simp only [searchFrom, lookUp_marksOf hc, markOf, List.not_mem_nil, if_false, if_neg hdone]
    show (do p.turns (j + k) ⟨← change (p.marksOf [] done) c fun _ => .onPath, [(c, 0)]⟩) = _
    rw [change_onPath hc]
    simp only [turns_nil] at hk
    exact hk j

/-- The turns that suffice for each of several classes suffice for all of them. -/
theorem exists_foldlM_searchFrom_eq {roots : List ClassId} (hroots : ∀ c ∈ roots, c < p.classes.size)
    (done : List ClassId) :
    ∃ k, ∀ n ≥ k, roots.foldlM (p.searchFrom n) (p.marksOf [] done) =
      refuse (roots.foldlM (fun done c =>
        if c ∈ done then pure done else p.searchCycle p.classes.size [] done c) done) >>=
          fun done => .ok (p.marksOf [] done) := by
  induction roots generalizing done with
  | nil => exact ⟨0, fun _ _ => rfl⟩
  | cons c roots ih =>
    obtain ⟨k, hk⟩ := exists_searchFrom_eq hrange (hroots c List.mem_cons_self) done
    simp only [List.foldlM_cons]
    cases hfirst : (if c ∈ done then pure done else p.searchCycle p.classes.size [] done c) with
    | error e =>
      rw [hfirst] at hk
      refine ⟨k, fun n hn => ?_⟩
      rw [hk n hn]
      rfl
    | ok done' =>
      rw [hfirst] at hk
      obtain ⟨j, hj⟩ := ih (fun d hd => hroots d (List.mem_cons_of_mem c hd)) done'
      refine ⟨max k j, fun n hn => ?_⟩
      rw [hk n (Nat.le_trans (Nat.le_max_left k j) hn)]
      exact hj n (Nat.le_trans (Nat.le_max_right k j) hn)

/-- The machine comes to an end, and its answer is that of the search. -/
theorem exists_searchInTurns_eq : ∃ k, ∀ n ≥ k, p.searchInTurns n = refuse p.checkAcyclic := by
  obtain ⟨k, hk⟩ := exists_foldlM_searchFrom_eq hrange (fun _ => List.mem_range.1) []
  refine ⟨k, fun n hn => ?_⟩
  have hstart : Array.replicate p.classes.size Mark.unvisited = p.marksOf [] [] :=
    replicate_eq_tabulate fun c => by simp [markOf]
  rw [searchInTurns, hstart, hk n hn, checkAcyclic, refuse_bind, bind_assoc]
  rfl

end

/-! ## Its answer -/

/-- The report names a class and a direct supertype of it from which supertypes lead back to the class. -/
def ReportsCycle (p : Program) (e : Malformation) : Prop :=
  ∃ c sup, sup ∈ p.supertypes c ∧ Relation.ReflTransGen (fun c sup => sup ∈ p.supertypes c) sup c ∧
    e = .cyclicHierarchy (p.className c) (p.className sup)

theorem of_foldlM_eq_error {ε α β : Type} {P : ε → Prop} {visit : β → α → Except ε β} {xs : List α}
    {b : β} {e : ε} (hvisit : ∀ x ∈ xs, ∀ b e, visit b x = .error e → P e)
    (h : xs.foldlM visit b = .error e) : P e := by
  induction xs generalizing b with
  | nil => cases h
  | cons x xs ih =>
    rw [List.foldlM_cons] at h
    rcases bind_eq_error_iff.1 h with hx | ⟨b', -, hxs⟩
    · exact hvisit x List.mem_cons_self b e hx
    · exact ih (fun y hy => hvisit y (List.mem_cons_of_mem x hy)) hxs

/-- Supertypes lead from the classes of the path to where the search is, so a step back onto the path closes a
cycle. -/
theorem reportsCycle_of_searchCycle {depth : Nat} {e : Malformation}
    (hpath : ∀ d ∈ path, Relation.ReflTransGen (fun c sup => sup ∈ p.supertypes c) d c)
    (h : p.searchCycle depth path done c = .error e) : p.ReportsCycle e := by
  induction depth generalizing path done c e with
  | zero => cases h
  | succ n ih =>
    have hpath' : ∀ d ∈ c :: path, Relation.ReflTransGen (fun c sup => sup ∈ p.supertypes c) d c := by
      intro d hd
      rcases List.mem_cons.1 hd with rfl | hd
      · exact .refl
      · exact hpath d hd
    rw [searchCycle] at h
    rcases bind_eq_error_iff.1 h with hfold | ⟨_, -, hpure⟩
    · refine of_foldlM_eq_error ?_ hfold
      intro sup hsup done e hvisit
      by_cases hcycle : sup ∈ c :: path
      · rw [if_pos hcycle] at hvisit
        cases hvisit
        exact ⟨c, sup, hsup, hpath' sup hcycle, rfl⟩
      rw [if_neg hcycle] at hvisit
      by_cases hmet : sup ∈ done
      · rw [if_pos hmet] at hvisit
        cases hvisit
      · rw [if_neg hmet] at hvisit
        refine ih ?_ hvisit
        intro d hd
        exact (hpath' d hd).tail hsup
    · cases hpure

theorem reportsCycle_of_checkAcyclic {e : Malformation} (h : p.checkAcyclic = .error e) :
    p.ReportsCycle e := by
  rcases bind_eq_error_iff.1 h with hfold | ⟨_, -, hpure⟩
  · refine of_foldlM_eq_error ?_ hfold
    intro c _ done e hvisit
    by_cases hmet : c ∈ done
    · rw [if_pos hmet] at hvisit
      cases hvisit
    · rw [if_neg hmet] at hvisit
      exact reportsCycle_of_searchCycle (fun _ hd => absurd hd List.not_mem_nil) hvisit
  · cases hpure

/-- The check passes exactly if no class is above itself. -/
theorem checkAcyclic_eq_ok_iff (hlt : ∀ c, ∀ sup ∈ p.supertypes c, sup < p.classes.size) :
    p.checkAcyclic = .ok () ↔ ∀ c, ¬ Relation.TransGen (fun c sup => sup ∈ p.supertypes c) c c := by
  constructor
  · intro hok c hcycle
    have hwf := (wellFounded_of_checkAcyclic hlt hok).transGen
    exact hwf.irrefl.irrefl c (Relation.transGen_swap.2 hcycle)
  · intro hnone
    cases hcheck : p.checkAcyclic with
    | ok => rfl
    | error e =>
      obtain ⟨c, sup, hsup, hpath, -⟩ := reportsCycle_of_checkAcyclic hcheck
      exact absurd (Relation.TransGen.head' hsup hpath) (hnone c)

/-- No class of a checked program is above itself. -/
theorem not_above_self (hp : p.validate = .ok ()) (c : ClassId) :
    ¬ Relation.TransGen (fun c sup => sup ∈ p.supertypes c) c c := by
  obtain ⟨-, hacyclic, -⟩ := validate_eq_ok_iff.1 hp
  exact (checkAcyclic_eq_ok_iff fun _ _ => lt_of_mem_supertypes hp).1 hacyclic c

theorem supertypes_lt_of_classes (h : ∀ decl ∈ p.classes.toList, ∀ sup ∈ decl.supertypes, sup < p.classes.size) :
    ∀ c, ∀ sup ∈ p.supertypes c, sup < p.classes.size := by
  intro c sup hsup
  obtain ⟨decl, hc, hmem⟩ := mem_supertypes_iff.1 hsup
  exact h decl (List.mem_of_getElem? (by simpa [class?] using hc)) sup hmem

end Program

namespace Sample

/-- `I`, `J extends I`, `A implements I, I, J` and `B extends A implements J, I`. -/
def sharing : Program := { Program.empty with
  classes := #[
    { ClassDecl.plain 0 "I" with isInterface := true },
    { ClassDecl.plain 1 "J" with isInterface := true, interfaces := [0] },
    { ClassDecl.plain 2 "A" with interfaces := [0, 0, 1] },
    { ClassDecl.plain 3 "B" with superclass := some 2, interfaces := [1, 0] }] }

/-- `A extends B`, `B implements J`, `I` and `J extends I, A`. -/
def tangled : Program := { Program.empty with
  classes := #[
    { ClassDecl.plain 0 "A" with superclass := some 1 },
    { ClassDecl.plain 1 "B" with interfaces := [3] },
    { ClassDecl.plain 2 "I" with isInterface := true },
    { ClassDecl.plain 3 "J" with isInterface := true, interfaces := [2, 0] }] }

end Sample

namespace Program

/-- The check of the hierarchy is exact, for every table of classes whose supertypes are there. The machine
comes to an end, asks for no position in vain and answers as the check does; the check passes exactly if no
class is above itself; and if it does not, it names the step that closes a cycle. -/
theorem checkAcyclic_exact {p : Program}
    (hrange : ∀ decl ∈ p.classes.toList, ∀ sup ∈ decl.supertypes, sup < p.classes.size) :
    (∃ k, ∀ n ≥ k, p.searchInTurns n = refuse p.checkAcyclic) ∧
    (p.checkAcyclic = .ok () ↔ ∀ c, ¬ Relation.TransGen (fun c sup => sup ∈ p.supertypes c) c c) ∧
    ∀ e, p.checkAcyclic = .error e → p.ReportsCycle e := by
  have hlt := supertypes_lt_of_classes hrange
  exact ⟨exists_searchInTurns_eq hlt, checkAcyclic_eq_ok_iff hlt, fun _ => reportsCycle_of_checkAcyclic⟩

/-- No class is above itself where supertypes are shared, and one is where a cycle goes through classes and
interfaces. -/
theorem checkAcyclic_exact_tangled :
    (∀ decl ∈ Sample.sharing.classes.toList, ∀ sup ∈ decl.supertypes, sup < Sample.sharing.classes.size) ∧
    (∀ c, ¬ Relation.TransGen (fun c sup => sup ∈ Sample.sharing.supertypes c) c c) ∧
    (∀ decl ∈ Sample.tangled.classes.toList, ∀ sup ∈ decl.supertypes, sup < Sample.tangled.classes.size) ∧
    Sample.tangled.checkAcyclic = .error (.cyclicHierarchy "J" "A") ∧
    Sample.tangled.ReportsCycle (.cyclicHierarchy "J" "A") ∧
    ∃ n, Sample.tangled.searchInTurns n =
      .error (.refused (.malformed (.cyclicHierarchy "J" "A"))) := by
  have hshared : ∀ decl ∈ Sample.sharing.classes.toList, ∀ sup ∈ decl.supertypes,
      sup < Sample.sharing.classes.size := by decide
  have htangled : ∀ decl ∈ Sample.tangled.classes.toList, ∀ sup ∈ decl.supertypes,
      sup < Sample.tangled.classes.size := by decide
  have hcycle : Sample.tangled.checkAcyclic = .error (.cyclicHierarchy "J" "A") := by rfl
  obtain ⟨-, hacyclic, -⟩ := checkAcyclic_exact hshared
  obtain ⟨⟨k, hk⟩, -, hreport⟩ := checkAcyclic_exact htangled
  refine ⟨hshared, hacyclic.1 (by rfl), htangled, hcycle, hreport _ hcycle, k, ?_⟩
  rw [hk k (Nat.le_refl k), hcycle]
  rfl

end Program

end PointsTo
