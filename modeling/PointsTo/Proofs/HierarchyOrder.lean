import PointsTo.Proofs.Subtypes

/-!
# The hierarchy has no cycle

The check of the hierarchy searches upward, depth first, and settles a class once everything directly
above it is settled. So in a checked program the classes can be listed such that each stands before its
direct supertypes (`Settled`), and a walk upward only ever goes further down that list. It ends within as
many steps as there are classes (`EndsWithin`).

Therefore the number of steps that the walks upward are given plays no role: `isSubtype` decides whether
there is a path through direct supertypes (`isSubtype_iff_path`), and `dispatch` is the walk that goes on
until it finds a method or there is no superclass left (`dispatch_eq`). The search downward ends by
itself, as it meets no class twice (`collectSubtypes_succ`).
-/

namespace PointsTo.Program

variable {p : Program} {c sup : ClassId} {path done done' : List ClassId}

/-! ## Classes in the order of the search -/

/-- Classes of the program in a list, none twice, each before all its direct supertypes. -/
inductive Settled (p : Program) : List ClassId → Prop where
  | nil : Settled p []
  | cons {c : ClassId} {done : List ClassId} (valid : c < p.classes.size) (new : c ∉ done)
      (above : p.supertypes c ⊆ done) (rest : Settled p done) : Settled p (c :: done)

theorem Settled.lt (h : p.Settled done) : ∀ c ∈ done, c < p.classes.size := by
  induction h with
  | nil => simp
  | cons valid _ _ _ ih =>
    intro c hc
    rcases List.mem_cons.1 hc with rfl | hc
    · exact valid
    · exact ih c hc

theorem Settled.nodup (h : p.Settled done) : done.Nodup := by
  induction h with
  | nil => exact List.nodup_nil
  | cons _ new _ _ ih => exact List.nodup_cons.2 ⟨new, ih⟩

/-- What visiting some classes does to the list of settled ones, where `path` leads to them from below:
they are settled, and the classes on the path are left alone. -/
structure Settles (p : Program) (path visited done done' : List ClassId) : Prop where
  settled : p.Settled done'
  kept : done ⊆ done'
  visited : visited ⊆ done'
  avoids : ∀ c ∈ path, c ∈ done' → c ∈ done

theorem settles_foldlM {visit : List ClassId → ClassId → Except Malformation (List ClassId)}
    {classes : List ClassId} (hvisit : ∀ c ∈ classes, ∀ done done', p.Settled done →
      visit done c = .ok done' → p.Settles path [c] done done')
    (hdone : p.Settled done) (h : classes.foldlM visit done = .ok done') :
    p.Settles path classes done done' := by
  induction classes generalizing done with
  | nil =>
    cases h
    exact ⟨hdone, List.Subset.refl _, List.nil_subset _, fun _ _ hc => hc⟩
  | cons c classes ih =>
    rw [List.foldlM_cons] at h
    obtain ⟨middle, hmiddle, h⟩ := bind_eq_ok_iff.1 h
    have hfirst := hvisit c List.mem_cons_self done middle hdone hmiddle
    have hrest := ih (fun c hc => hvisit c (List.mem_cons_of_mem _ hc)) hfirst.settled h
    refine ⟨hrest.settled, List.Subset.trans hfirst.kept hrest.kept, ?_, ?_⟩
    · intro d hd
      rcases List.mem_cons.1 hd with rfl | hd
      · exact hrest.kept (hfirst.visited (List.mem_singleton.2 rfl))
      · exact hrest.visited hd
    · intro d hd hd'
      exact hfirst.avoids d hd (hrest.avoids d hd hd')

/-- A search upward settles the class where it starts. The path to that class has no repetition, so the
depth that is left is never used up. -/
theorem settles_searchCycle (hrange : ∀ c, ∀ sup ∈ p.supertypes c, sup < p.classes.size) {depth : Nat}
    (hdepth : p.classes.size ≤ depth + path.length) (hpath : (c :: path).Nodup)
    (hlt : ∀ d ∈ c :: path, d < p.classes.size) (hnew : c ∉ done) (hdone : p.Settled done)
    (h : p.searchCycle depth path done c = .ok done') : p.Settles path [c] done done' := by
  induction depth generalizing path done c done' with
  | zero =>
    have hlength := length_le_of_nodup hpath hlt
    rw [List.length_cons] at hlength
    omega
  | succ n ih =>
    rw [searchCycle] at h
    obtain ⟨middle, hmiddle, h⟩ := bind_eq_ok_iff.1 h
    cases h
    have habove : p.Settles (c :: path) (p.supertypes c) done middle := by
      refine settles_foldlM ?_ hdone hmiddle
      intro sup hsup done done' hdone hvisit
      by_cases hcycle : sup ∈ c :: path
      · simp only [if_pos hcycle] at hvisit
        cases hvisit
      rw [if_neg hcycle] at hvisit
      by_cases hmet : sup ∈ done
      · rw [if_pos hmet] at hvisit
        cases hvisit
        exact ⟨hdone, List.Subset.refl _, by simpa using hmet, fun _ _ hd => hd⟩
      · rw [if_neg hmet] at hvisit
        refine ih ?_ (List.nodup_cons.2 ⟨hcycle, hpath⟩) ?_ hmet hdone hvisit
        · rw [List.length_cons]
          omega
        · intro d hd
          rcases List.mem_cons.1 hd with rfl | hd
          · exact hrange c d hsup
          · exact hlt d hd
    have hc : c ∉ middle := fun hc => hnew (habove.avoids c List.mem_cons_self hc)
    refine ⟨.cons (hlt c List.mem_cons_self) hc habove.visited habove.settled, ?_, by simp, ?_⟩
    · exact fun d hd => List.mem_cons_of_mem c (habove.kept hd)
    · intro d hd hd'
      rcases List.mem_cons.1 hd' with rfl | hd'
      · exact absurd hd (List.nodup_cons.1 hpath).1
      · exact habove.avoids d (List.mem_cons_of_mem c hd) hd'

/-- If the search finds no cycle, the classes can be listed, each before its direct supertypes. -/
theorem exists_settled (hrange : ∀ c, ∀ sup ∈ p.supertypes c, sup < p.classes.size)
    (hacyclic : p.checkAcyclic = .ok ()) : ∃ done, p.Settled done ∧ ∀ c < p.classes.size, c ∈ done := by
  obtain ⟨done, hdone, -⟩ := bind_eq_ok_iff.1 hacyclic
  have hall : p.Settles [] (List.range p.classes.size) [] done := by
    refine settles_foldlM ?_ .nil hdone
    intro c hc done done' hdone hvisit
    by_cases hmet : c ∈ done
    · rw [if_pos hmet] at hvisit
      cases hvisit
      exact ⟨hdone, List.Subset.refl _, by simpa using hmet, nofun⟩
    · rw [if_neg hmet] at hvisit
      have hlt : ∀ d ∈ [c], d < p.classes.size := by simpa using hc
      exact settles_searchCycle hrange (Nat.le_refl _) (List.pairwise_singleton _ c) hlt hmet hdone hvisit
  exact ⟨done, hall.settled, fun c hc => hall.visited (List.mem_range.2 hc)⟩

/-! ## Walks upward end -/

/-- Every walk upward that starts at `c` ends before its `n`-th step. -/
def EndsWithin (p : Program) : (n : Nat) → (c : ClassId) → Prop
  | 0, _ => False
  | n + 1, c => ∀ sup ∈ p.supertypes c, p.EndsWithin n sup

theorem EndsWithin.mono {m n : Nat} (h : p.EndsWithin m c) (hle : m ≤ n) : p.EndsWithin n c := by
  induction m generalizing c n with
  | zero => exact h.elim
  | succ m ih =>
    obtain ⟨n, rfl⟩ := Nat.exists_eq_add_of_le' (Nat.le_trans (Nat.le_add_left 1 m) hle)
    intro sup hsup
    exact ih (h sup hsup) (Nat.le_of_succ_le_succ hle)

theorem Settled.endsWithin (h : p.Settled done) (hc : c ∈ done) : p.EndsWithin done.length c := by
  induction h generalizing c with
  | nil => cases hc
  | @cons d done _ _ above _ ih =>
    rcases List.mem_cons.1 hc with rfl | hc
    · intro sup hsup
      exact ih (above hsup)
    · exact (ih hc).mono (Nat.le_succ _)

/-- If the search finds no cycle, a walk upward takes fewer steps than there are classes. -/
theorem endsWithin_of_checkAcyclic (hrange : ∀ c, ∀ sup ∈ p.supertypes c, sup < p.classes.size)
    (hacyclic : p.checkAcyclic = .ok ()) (hc : c < p.classes.size) :
    p.EndsWithin p.classes.size c := by
  obtain ⟨done, hdone, hall⟩ := exists_settled hrange hacyclic
  exact (hdone.endsWithin (hall c hc)).mono (length_le_of_nodup hdone.nodup hdone.lt)

theorem endsWithin_of_validate (hp : p.validate = .ok ()) (hc : c < p.classes.size) :
    p.EndsWithin p.classes.size c := by
  obtain ⟨-, hacyclic, -⟩ := validate_eq_ok_iff.1 hp
  exact endsWithin_of_checkAcyclic (fun _ _ => lt_of_mem_supertypes hp) hacyclic hc

theorem lt_of_supertypes_ne_nil (h : sup ∈ p.supertypes c) : c < p.classes.size := by
  obtain ⟨decl, hdecl, -⟩ := mem_supertypes_iff.1 h
  exact (Array.getElem?_eq_some_iff.1 hdecl).1

theorem EndsWithin.acc {n : Nat} (h : p.EndsWithin n c) : Acc (fun sup c => sup ∈ p.supertypes c) c := by
  induction n generalizing c with
  | zero => exact h.elim
  | succ n ih => exact ⟨c, fun sup hsup => ih (h sup hsup)⟩

theorem wellFounded_of_checkAcyclic (hrange : ∀ c, ∀ sup ∈ p.supertypes c, sup < p.classes.size)
    (hacyclic : p.checkAcyclic = .ok ()) : WellFounded fun sup c => sup ∈ p.supertypes c := by
  refine ⟨fun c => ⟨c, fun sup hsup => ?_⟩⟩
  exact (endsWithin_of_checkAcyclic hrange hacyclic (hrange c sup hsup)).acc

theorem wellFounded_supertypes (hp : p.validate = .ok ()) :
    WellFounded fun sup c => sup ∈ p.supertypes c := by
  obtain ⟨-, hacyclic, -⟩ := validate_eq_ok_iff.1 hp
  exact wellFounded_of_checkAcyclic (fun _ _ => lt_of_mem_supertypes hp) hacyclic

/-! ## Walks upward need no bound -/

theorem climbs_self (n : Nat) (c : ClassId) : p.climbs c n c = true := by
  cases n <;> simp [climbs]

/-- A path of direct supertypes is found by a climb of as many steps as such a path can have. -/
theorem climbs_of_path {n : Nat} (h : p.EndsWithin n c)
    (hpath : Relation.ReflTransGen (fun c d => d ∈ p.supertypes c) c sup) :
    p.climbs sup n c = true := by
  induction n generalizing c with
  | zero => exact h.elim
  | succ n ih =>
    rcases hpath.cases_head with rfl | ⟨d, hd, hpath⟩
    · exact climbs_self _ _
    · rw [climbs, Bool.or_eq_true, List.any_eq_true]
      exact Or.inr ⟨d, hd, ih (h d hd) hpath⟩

/-- A class is below another if direct supertypes lead from the one to the other. -/
theorem isSubtype_iff_path (hp : p.validate = .ok ()) :
    p.isSubtype c sup = true ↔ Relation.ReflTransGen (fun c d => d ∈ p.supertypes c) c sup := by
  refine ⟨path_of_climbs, fun hpath => ?_⟩
  rcases hpath.cases_head with rfl | ⟨d, hd, -⟩
  · exact climbs_self _ _
  · exact climbs_of_path (endsWithin_of_validate hp (lt_of_supertypes_ne_nil hd)) hpath

theorem isSubtype_eq (hp : p.validate = .ok ()) (c sup : ClassId) :
    p.isSubtype c sup = (c == sup || (p.supertypes c).any (p.isSubtype · sup)) := by
  rw [Bool.eq_iff_iff, isSubtype_iff_path hp, Relation.ReflTransGen.cases_head_iff, Bool.or_eq_true,
    beq_iff_eq, List.any_eq_true]
  simp only [isSubtype_iff_path hp]

theorem mem_supertypes_of_superclass? (h : p.superclass? c = some sup) : sup ∈ p.supertypes c := by
  obtain ⟨decl, hdecl, hsup⟩ := Option.bind_eq_some_iff.1 h
  exact mem_supertypes_iff.2 ⟨decl, hdecl, List.mem_append_left _ (Option.mem_toList.2 hsup)⟩

/-- A walk for a method that has come to its end is not changed by one more step. -/
theorem dispatchWithin_succ {subsignature : String} {n : Nat} (h : p.EndsWithin n c) :
    p.dispatchWithin subsignature (n + 1) c = p.dispatchWithin subsignature n c := by
  induction n generalizing c with
  | zero => exact h.elim
  | succ n ih =>
    rw [dispatchWithin, dispatchWithin]
    cases hsup : p.superclass? c with
    | none => rfl
    | some sup =>
      show _ = (p.concrete? c subsignature).or (p.dispatchWithin subsignature n sup)
      rw [← ih (h sup (mem_supertypes_of_superclass? hsup))]
      rfl

theorem dispatch_eq (hp : p.validate = .ok ()) (c : ClassId) (subsignature : String) :
    p.dispatch c subsignature =
      (p.concrete? c subsignature).or ((p.superclass? c).bind (p.dispatch · subsignature)) := by
  by_cases hc : c < p.classes.size
  · rw [dispatch, ← dispatchWithin_succ (endsWithin_of_validate hp hc), dispatchWithin]
    rfl
  · have hnone : p.class? c = none := Array.getElem?_eq_none (Nat.le_of_not_lt hc)
    have hconcrete : p.concrete? c subsignature = none := by simp [concrete?, declared?, hnone]
    have hsuper : p.superclass? c = none := by simp [superclass?, hnone]
    rw [hconcrete, hsuper, dispatch]
    cases p.classes.size with
    | zero => rfl
    | succ n => rw [dispatchWithin, hconcrete, hsuper]; rfl

/-! ## The classes below a class -/

/-- The search downward finds the classes from which the walk upward leads to where it started. -/
theorem mem_subtypes_iff (hp : p.validate = .ok ()) (hsup : sup < p.classes.size) :
    c ∈ p.indexed.subtypes sup ↔ p.isSubtype c sup = true := by
  refine ⟨fun hc => ?_, mem_subtypes_of_isSubtype hp hsup⟩
  rw [isSubtype_iff_path hp]
  refine of_mem_collectSubtypes (P := fun c => Relation.ReflTransGen _ c sup)
    ?_ (by simp) (by simp [Relation.ReflTransGen.refl]) c hc
  intro c hpath d hd
  exact .head ((mem_directSubtypes_iff hp).1 hd) hpath

/-- The walks over the hierarchy end by themselves, so that it plays no role how many steps they are
given: upward there is always a last step, and `isSubtype` and `dispatch` go on as long as there is a
next one; downward all rounds beyond the bound change nothing. -/
structure WalksEnd (p : Program) : Prop where
  upward : WellFounded fun sup c => sup ∈ p.supertypes c
  isSubtype : ∀ c sup, p.isSubtype c sup = (c == sup || (p.supertypes c).any (p.isSubtype · sup))
  dispatch : ∀ c subsignature, p.dispatch c subsignature =
    (p.concrete? c subsignature).or ((p.superclass? c).bind (p.dispatch · subsignature))
  subtypes : ∀ c < p.classes.size, ∀ rounds, p.classes.size < rounds →
    p.indexed.collectSubtypes rounds [] [c] = p.indexed.subtypes c

theorem walksEnd_of_validate (hp : p.validate = .ok ()) : p.WalksEnd where
  upward := wellFounded_supertypes hp
  isSubtype := isSubtype_eq hp
  dispatch := dispatch_eq hp
  subtypes c hc rounds hrounds := by
    induction rounds, hrounds using Nat.le_induction with
    | base => rfl
    | succ n hn ih =>
      rw [collectSubtypes_succ hp .start (by simpa using hc) hn, ih]

end PointsTo.Program
