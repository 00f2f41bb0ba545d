import Mathlib.Tactic.GCongr
import PointsTo.Proofs.OrderIndependence
import PointsTo.Proofs.Scope
import PointsTo.Proofs.Workload

/-!
# How many steps a run takes

Everything that a run does costs potential: what waits counts once, and each fact of the scope that is
not found yet counts for more than can be put on the queues by finding it (`potential`). The potential
of the start, `Program.stepsWithin`, is computed from the program and the number of contexts alone. So
no run of a shipped policy takes more steps than `Program.stepBound`, which depends on the program and
the depths, but not on the entries, the policy or the order of the work.
-/

namespace PointsTo

namespace Program

variable (p : Program)

/-! ## The bound -/

/-- The number of objects under `contexts` heap contexts. -/
def objectCount (contexts : Nat) : Nat := contexts * (Heap.ofProgram p).objects.size

def locationCount (contexts : Nat) : Nat :=
  contexts * p.vars.size + p.objectCount contexts * p.fields.size + p.fields.size +
    p.objectCount contexts

def markCount (contexts : Nat) : Nat :=
  contexts * p.methods.size + p.locationCount contexts * p.objectCount contexts

/-- The most that handling one arrival or wiring one method puts on the queues: an arrival at each
location, and what the statements do to each object and to the method. -/
def burst (contexts : Nat) : Nat :=
  p.locationCount contexts + p.objectCount contexts * (5 * (p.stmtCount * p.stmtWork)) +
    p.stmtCount * p.stmtWork

/-- The number of steps that a run with `contexts` contexts does not exceed. -/
def stepsWithin (contexts : Nat) : Nat :=
  (p.burst contexts + 1) * p.markCount contexts + p.burst contexts + 1

/-- The number of steps that no run of a shipped policy with contexts of at most `k` elements, and of at
most `heapK` for objects, exceeds. -/
def stepBound (k heapK : Nat) : Nat := p.stepsWithin ((p.contextElements.length + 1) ^ max k heapK)

variable {p} {cs : List Context}

theorem length_heapObjects : (p.heapObjects cs).length = p.objectCount cs.length := by
  rw [heapObjects, List.length_map, List.length_product, List.length_range, objectCount]

theorem length_locations : (p.locations cs).length = p.locationCount cs.length := by
  simp only [locations, List.length_append, List.length_map, List.length_product, List.length_range,
    length_heapObjects, locationCount]

theorem length_marks : (p.marks cs).length = p.markCount cs.length := by
  simp only [marks, methodInstances, List.length_append, List.length_map, List.length_product,
    List.length_range, length_locations, length_heapObjects, markCount]

theorem stepsWithin_mono {m n : Nat} (h : m ≤ n) : p.stepsWithin m ≤ p.stepsWithin n := by
  unfold stepsWithin burst markCount locationCount objectCount
  gcongr

theorem length_contextsUpTo_le (n : Nat) :
    (p.contextsUpTo n).length ≤ (p.contextElements.length + 1) ^ n := by
  rw [contextsUpTo, List.length_map]
  exact length_listsUpTo_le _ _

/-- The facts of the scope that measure progress are listed. -/
theorem mem_marks {f : Fact} (hf : p.InScope cs f) (hm : Solver.Marks f) : f ∈ p.marks cs := by
  cases f with
  | reachable m => exact List.mem_append_left _ (List.mem_map.2 ⟨m, hf, rfl⟩)
  | pointsTo l o =>
    exact List.mem_append_right _ (List.mem_map.2 ⟨(l, o), List.mem_product.2 hf, rfl⟩)
  | _ => exact hm.elim

theorem finite_marks (p : Program) (cs : List Context) :
    {f | p.InScope cs f ∧ Solver.Marks f}.Finite :=
  (List.finite_toSet (p.marks cs)).subset fun _ hf => mem_marks hf.1 hf.2

end Program

namespace Solver

variable {setup : Setup} {cs : List Context} {entries : List MethodId} {order : WorklistOrder}
  {s t : State}

/-! ## The potential -/

/-- What a run has still to spend. -/
noncomputable def potential (setup : Setup) (cs : List Context) (s : State) : Nat :=
  todo s + (setup.program.burst cs.length + 1) * missingCount (setup.program.finite_marks cs) s

theorem missingCount_le_markCount (p : Program) (cs : List Context) (s : State) :
    missingCount (p.finite_marks cs) s ≤ p.markCount cs.length := by
  classical
  have hsub : (finite_missing (p.finite_marks cs) s).toFinset ⊆ (p.marks cs).toFinset := by
    intro f hf
    rw [Set.Finite.mem_toFinset] at hf
    obtain ⟨hscope, hm, -⟩ := hf
    exact List.mem_toFinset.2 (Program.mem_marks hscope hm)
  calc missingCount (p.finite_marks cs) s ≤ (p.marks cs).toFinset.card := Finset.card_le_card hsub
    _ ≤ (p.marks cs).length := List.toFinset_card_le _
    _ = p.markCount cs.length := Program.length_marks

theorem potential_initial_le (setup : Setup) (cs : List Context) (order : WorklistOrder) :
    potential setup cs (.initial order) ≤
      (setup.program.burst cs.length + 1) * setup.program.markCount cs.length := by
  have htodo : todo (.initial order) = 0 := rfl
  rw [potential, htodo, Nat.zero_add]
  exact Nat.mul_le_mul_left _ (missingCount_le_markCount _ cs _)

/-- What is put on the queues is all that potential can rise by. -/
theorem potential_le (setup : Setup) (hgrows : s.Grows t) {n : Nat} (h : todo t ≤ todo s + n) :
    potential setup cs t ≤ potential setup cs s + n := by
  have hmissing := Nat.mul_le_mul_left (setup.program.burst cs.length + 1)
    (missingCount_le (setup.program.finite_marks cs) hgrows)
  unfold potential
  omega

/-- Progress costs potential, as long as no more than a burst is put on the queues. -/
theorem potential_lt (hgrows : s.Grows t) (ht : t.Sound setup (setup.program.InScope cs))
    (hprog : Progresses s t) (h : todo t ≤ todo s + setup.program.burst cs.length) :
    potential setup cs t < potential setup cs s := by
  have hnew : ∀ f, Marks f → t.Found f → ¬s.Found f → potential setup cs t < potential setup cs s := by
    intro f hm hf hn
    have hlt := missingCount_lt (setup.program.finite_marks cs) hgrows ht hm hf hn
    -- the fact found pays for a burst
    have hpaid := Nat.mul_le_mul_left (setup.program.burst cs.length + 1) hlt
    rw [Nat.mul_succ] at hpaid
    unfold potential
    omega
  rcases hprog with ⟨m, hf, hn⟩ | ⟨l, o, hf, hn⟩ | hlt
  · exact hnew (.reachable m) trivial hf hn
  · exact hnew (.pointsTo l o) trivial hf hn
  · have hmissing := Nat.mul_le_mul_left (setup.program.burst cs.length + 1)
      (missingCount_le (setup.program.finite_marks cs) hgrows)
    unfold potential
    omega

/-! ## What one thing done puts on the queues -/

/-- A pointer has no more successors than there are locations in scope. -/
theorem length_successors_le {p : Program} (hs : s.Sound setup (p.InScope cs)) (i : PointerId) :
    (s.flow.successors i).length ≤ p.locationCount cs.length := by
  rw [← Program.length_locations]
  refine length_le_of_values (f := s.arena.location?) (g := some) (hs.wellFormed.nodup_flow i) ?_
    (fun _ _ _ => Arena.eq_of_location?) ?_
  · exact fun j hj => hs.wellFormed.arena.location j (hs.wellFormed.flow i j hj).2
  · exact fun j _ l hl => ⟨l, hs.knows (.location l) (Or.inl ⟨j, hl⟩), rfl⟩

/-- A set of interned objects has no more members than there are objects in scope. -/
theorem length_objects_le {p : Program} (hs : s.Sound setup (p.InScope cs)) {objects : PointsToSet}
    (h : ∀ k ∈ objects, k < s.arena.objects.size) :
    objects.toList.length ≤ p.objectCount cs.length := by
  rw [← Program.length_heapObjects]
  refine length_le_of_values (f := s.arena.object?) (g := some) (objects.sorted.imp Nat.ne_of_lt) ?_
    (fun _ _ _ => Arena.eq_of_object?) ?_
  · exact fun k hk => hs.wellFormed.arena.object k (h k hk)
  · exact fun k _ o ho => ⟨o, hs.knows (.object o) (Or.inl ⟨k, ho⟩), rfl⟩

/-- Settling an arrival makes something arrive at each successor at most. -/
theorem ends_settle (s : State) (a : Arrival) :
    Ends (settle a) s
      (fun fresh t => fresh = a.objects.diff (s.pointsTo a.pointer) ∧
        todo t ≤ todo s + (s.flow.successors a.pointer).length)
      fun _ _ => False := by
  refine Ends.bind_of_eq get_eq ?_
  dsimp only
  split
  · exact Ends.of_eq rfl ⟨rfl, Nat.le_add_right _ _⟩
  · refine Ends.bind_of_eq modify_eq (Ends.of_eq rfl ⟨rfl, ?_⟩)
    set fresh := a.objects.diff (s.pointsTo a.pointer)
    obtain ⟨w, hw, hlist⟩ := spread_eq s a.pointer fresh
    rw [hw]
    show s.pending.toList.length + w.toList.length ≤ _
    rw [hlist, List.length_append, List.length_map, todo, Nat.add_assoc]

/-- Handling an arrival puts no more than a burst on the queues. -/
theorem ends_handle_todo (hset : setup.WellFormed)
    (hs : s.Sound setup (setup.program.InScope cs)) {a : Arrival} {w : Worklist}
    (hpop : s.worklist.pop = some (a, w)) {stats : SolverStats} :
    Ends (handle setup a) { s with worklist := w, stats }
      (fun _ t => todo t ≤ todo s + setup.program.burst cs.length) fun _ _ => True := by
  have hperm := Worklist.perm_of_pop hpop
  have ha : a ∈ s.worklist.toList := hperm.mem_iff.2 List.mem_cons_self
  have htodo : todo { s with worklist := w, stats } ≤ todo s := by
    show s.pending.toList.length + w.toList.length ≤ s.pending.toList.length + s.worklist.toList.length
    rw [hperm.length_eq, List.length_cons]
    omega
  refine Ends.bind (ends_settle _ a) ?_ fun _ _ _ => trivial
  rintro fresh t ⟨rfl, ht⟩
  set fresh := a.objects.diff (s.pointsTo a.pointer) with hfresh
  have hobjects : fresh.toList.length ≤ setup.program.objectCount cs.length := by
    refine length_objects_le hs fun k hk => ?_
    rw [hfresh, IdSet.mem_diff] at hk
    exact (hs.wellFormed.worklist a ha).2 k hk.1
  have hsuccessors := length_successors_le hs a.pointer
  have hwork := Nat.mul_le_mul_right (5 * (setup.program.stmtCount * setup.program.stmtWork)) hobjects
  refine Ends.mono ((respects_meetAll frame_adds hset a.pointer fresh.toList).ends t) ?_
    fun _ _ _ => trivial
  rintro - u ⟨-, hu⟩
  have ht : todo t ≤ todo { s with worklist := w, stats } + (s.flow.successors a.pointer).length := ht
  unfold Program.burst
  omega

/-- Doing one thing puts no more than a burst on the queues. -/
theorem ends_advance_todo (hset : setup.WellFormed)
    (hs : s.Sound setup (setup.program.InScope cs)) :
    Ends (advance setup) s (fun _ t => todo t ≤ todo s + setup.program.burst cs.length)
      fun _ _ => True := by
  unfold advance
  refine Ends.bind_of_eq get_eq ?_
  cases hpop : s.pending.popFront with
  | some next =>
    obtain ⟨j, pending⟩ := next
    refine Ends.bind_of_eq modify_eq ?_
    refine Ends.bind ((respects_addReachable frame_adds adds_reach j).ends { s with pending }) ?_ fun _ _ _ => trivial
    rintro - t ⟨-, ht⟩
    have hlist := Deque.toList_of_popFront hpop
    have htodo : todo { s with pending } ≤ todo s := by
      show pending.toList.length + s.worklist.toList.length ≤ s.pending.toList.length + _
      rw [hlist, List.length_cons]
      omega
    refine Ends.of_eq rfl ?_
    unfold Program.burst
    omega
  | none =>
    refine Ends.bind_of_eq get_eq ?_
    cases hpop' : s.worklist.pop with
    | some next =>
      refine Ends.bind_of_eq modify_eq ?_
      refine Ends.bind (ends_handle_todo hset hs hpop') ?_ fun _ _ _ => trivial
      exact fun _ t ht => Ends.of_eq rfl ht
    | none => exact Ends.of_eq rfl (Nat.le_add_right _ _)

/-! ## Going on until the potential is spent -/

/-- No fault is a lack of fuel. -/
theorem ne_outOfFuel_of_fault {f : Fact} {e : AnalysisError} (h : Fault setup f e) :
    e ≠ .outOfFuel := by
  cases h with
  | unknownMethod | arity => nofun
  | misstep hs h => cases h <;> nofun
  | refusal h => cases h; nofun

theorem ends_advance_potential (hset : setup.WellFormed)
    (hF : Closed setup entries (setup.program.InScope cs))
    (hs : s.Sound setup (setup.program.InScope cs)) :
    Ends (advance setup) s
      (fun done t => t.Sound setup (setup.program.InScope cs) ∧
        (done ≠ .idle → potential setup cs t < potential setup cs s))
      fun e _ => e ≠ .outOfFuel := by
  refine Ends.mono ((ends_advance hset hF hs).and (ends_advance_todo hset hs)) ?_ ?_
  · rintro done t ⟨⟨hadv, hdone⟩, htodo⟩
    refine ⟨hadv.sound, ?_⟩
    intro hne
    rcases hdone with ⟨hidle, -⟩ | ⟨-, hprog⟩
    · exact absurd hidle hne
    · exact potential_lt hadv.grows hadv.sound hprog htodo
  · rintro e t ⟨⟨-, f, -, he⟩, -⟩
    exact ne_outOfFuel_of_fault he

/-- Given more fuel than there is potential, a step does not run out of it; and if it has handled an
arrival, it has spent potential. -/
theorem ends_step_potential (hset : setup.WellFormed)
    (hF : Closed setup entries (setup.program.InScope cs)) (fuel : Nat)
    (hs : s.Sound setup (setup.program.InScope cs)) (hfuel : potential setup cs s < fuel) :
    Ends (step setup fuel) s
      (fun handled t => t.Sound setup (setup.program.InScope cs) ∧
        (handled = true → potential setup cs t < potential setup cs s))
      fun e _ => e ≠ .outOfFuel := by
  induction fuel generalizing s with
  | zero => exact absurd hfuel (Nat.not_lt_zero _)
  | succ fuel ih =>
    refine Ends.bind (ends_advance_potential hset hF hs) ?_ fun _ _ h => h
    rintro done t ⟨ht, hlt⟩
    cases done with
    | wired =>
      have hspent := hlt nofun
      refine Ends.mono (ih ht (by omega)) ?_ fun _ _ h => h
      rintro handled u ⟨hu, hlt'⟩
      exact ⟨hu, fun h => (hlt' h).trans hspent⟩
    | handled => exact Ends.of_eq rfl ⟨ht, fun _ => hlt nofun⟩
    | idle => exact Ends.of_eq rfl ⟨ht, nofun⟩

theorem ends_run_potential (hset : setup.WellFormed)
    (hF : Closed setup entries (setup.program.InScope cs)) (fuel : Nat)
    (hs : s.Sound setup (setup.program.InScope cs)) (hfuel : potential setup cs s < fuel) :
    Ends (run setup fuel) s (fun _ _ => True) fun e _ => e ≠ .outOfFuel := by
  induction fuel generalizing s with
  | zero => exact absurd hfuel (Nat.not_lt_zero _)
  | succ fuel ih =>
    refine Ends.bind (ends_advance_potential hset hF hs) ?_ fun _ _ h => h
    rintro done t ⟨ht, hlt⟩
    cases done with
    | wired | handled =>
      have hspent := hlt nofun
      exact ih ht (by omega)
    | idle => exact Ends.of_eq rfl trivial

/-- The steps taken from a state, each with the given fuel, stop with the `n`-th of them: it handles no
arrival, or it fails for another reason than a lack of fuel. -/
inductive StopsAfter (setup : Setup) (fuel : Nat) : Nat → State → Prop where
  | idle {s t : State} (h : step setup fuel s = .ok false t) : StopsAfter setup fuel 1 s
  | failed {s t : State} {e : AnalysisError} (h : step setup fuel s = .error e t)
      (he : e ≠ .outOfFuel) : StopsAfter setup fuel 1 s
  | handled {n : Nat} {s t : State} (h : step setup fuel s = .ok true t)
      (ht : StopsAfter setup fuel n t) : StopsAfter setup fuel (n + 1) s

/-- A step is the last one or it spends potential. -/
theorem stops_or_handles (hset : setup.WellFormed)
    (hF : Closed setup entries (setup.program.InScope cs)) {fuel : Nat}
    (hs : s.Sound setup (setup.program.InScope cs)) (hfuel : potential setup cs s < fuel) :
    StopsAfter setup fuel 1 s ∨ ∃ t, step setup fuel s = .ok true t ∧
      t.Sound setup (setup.program.InScope cs) ∧ potential setup cs t < potential setup cs s := by
  have hends := ends_step_potential hset hF fuel hs hfuel
  cases hstep : step setup fuel s with
  | error e t => exact Or.inl (.failed hstep (hends.failed_of_eq hstep))
  | ok handled t =>
    cases handled with
    | false => exact Or.inl (.idle hstep)
    | true =>
      obtain ⟨ht, hlt⟩ := hends.ok_of_eq hstep
      exact Or.inr ⟨t, rfl, ht, hlt rfl⟩

/-- Stepping stops when the potential is spent. -/
theorem exists_stopsAfter (hset : setup.WellFormed)
    (hF : Closed setup entries (setup.program.InScope cs)) {fuel : Nat} (n : Nat) (s : State)
    (hs : s.Sound setup (setup.program.InScope cs)) (hn : potential setup cs s ≤ n)
    (hfuel : n < fuel) : ∃ m ≤ n + 1, StopsAfter setup fuel m s := by
  -- the induction is on a bound of the potential: a step may spend more than one of it
  induction n generalizing s with
  | zero =>
    rcases stops_or_handles hset hF hs (hn.trans_lt hfuel) with hstops | ⟨t, -, -, hlt⟩
    · exact ⟨1, Nat.le_refl _, hstops⟩
    · omega
  | succ n ih =>
    rcases stops_or_handles hset hF hs (hn.trans_lt hfuel) with hstops | ⟨t, hstep, ht, hlt⟩
    · exact ⟨1, Nat.le_add_left _ _, hstops⟩
    · obtain ⟨m, hm, hstops⟩ := ih t ht (by omega) (by omega)
      exact ⟨m + 1, by omega, .handled hstep hstops⟩

/-! ## The entries -/

/-- Entering a method costs potential unless it fails, and even then no more than a burst is added. -/
theorem ends_seedEntry_potential (hset : setup.WellFormed)
    (hF : Closed setup entries (setup.program.InScope cs))
    (hs : s.Sound setup (setup.program.InScope cs)) {k : ContextId} {c : Context}
    (hk : s.arena.contexts.get? k = some c) {n : MethodId}
    (hm : setup.program.InScope cs (.entry ⟨c, n⟩)) :
    Ends (seedEntry setup k n) s
      (fun _ t => potential setup cs t ≤ potential setup cs s)
      fun _ t => potential setup cs t ≤
        potential setup cs s + setup.program.burst cs.length := by
  have hr := hF.rule .entry hm
  refine Ends.bind ((acts_methodId hs hk (hF.rule .occurs hr)).and
    ((respects_methodId frame_adds.linkFrame ⟨k, n⟩).ends s)) ?_ ?_
  · rintro j t ⟨⟨ht, hj⟩, hgrows, htodo⟩
    refine Ends.bind_of_eq modify_eq ?_
    have hj' : (enter t j).arena.method? j = some ⟨c, n⟩ := hj
    have hstart : potential setup cs (enter t j) ≤ potential setup cs s :=
      potential_le setup (hgrows.trans grows_enter) htodo
    have hburst : setup.program.stmtCount * setup.program.stmtWork ≤
        setup.program.burst cs.length := Nat.le_add_left _ _
    refine Ends.mono ((ends_addReachable hset hF (sound_enter ht.sound hj hm) hj' hr).and
      ((respects_addReachable frame_adds adds_reach j).ends (enter t j))) ?_ ?_
    · rintro - u ⟨⟨hext, hreach, hprog⟩, -, hu⟩
      -- either the method was reachable before, or that it is now pays for wiring it
      rcases hprog with rfl | hnot
      · exact hstart
      · have hprog : Progresses (enter t j) u := Or.inl ⟨_, hreach, hnot⟩
        have hlt := potential_lt hext.grows hext.sound hprog (by omega)
        omega
    · rintro e u ⟨-, hgrows', hu⟩
      have hle : potential setup cs u ≤ _ := potential_le setup hgrows' hu
      omega
  · rintro e t ⟨-, hgrows, htodo⟩
    have hle : potential setup cs t ≤ _ := potential_le setup hgrows htodo
    omega

theorem ends_seedEntries_potential (hset : setup.WellFormed)
    (hF : Closed setup entries (setup.program.InScope cs))
    (hs : s.Sound setup (setup.program.InScope cs)) {k : ContextId} {c : Context}
    (hk : s.arena.contexts.get? k = some c) (ns : List MethodId)
    (hns : ∀ n ∈ ns, setup.program.InScope cs (.entry ⟨c, n⟩)) :
    Ends (ns.forM (seedEntry setup k)) s
      (fun _ t => potential setup cs t ≤ potential setup cs s)
      fun _ t => potential setup cs t ≤
        potential setup cs s + setup.program.burst cs.length := by
  induction ns generalizing s with
  | nil => exact Ends.of_eq rfl (Nat.le_refl _)
  | cons n ns ih =>
    have hn := hns n List.mem_cons_self
    refine Ends.bind ((ends_seedEntry hset hF hs hk hn).and
      (ends_seedEntry_potential hset hF hs hk hn)) ?_ fun _ _ h => h.2
    rintro - t ⟨⟨hadv, -⟩, hle⟩
    have hrest := ih hadv.sound (hadv.grows.arena.contexts _ _ hk)
      fun m hm => hns m (List.mem_cons_of_mem n hm)
    refine Ends.mono hrest ?_ ?_
    · intro _ u hu
      exact hu.trans hle
    · intro _ u hu
      omega

/-- Whether seeding the entries succeeds or not, no more than a burst is added to the potential. -/
theorem ends_seed_potential (hset : setup.WellFormed)
    (hF : Closed setup entries (setup.program.InScope cs))
    (hs : s.Sound setup (setup.program.InScope cs)) :
    Ends (seed setup entries) s
      (fun _ t => potential setup cs t ≤ potential setup cs s + setup.program.burst cs.length)
      fun _ t => potential setup cs t ≤ potential setup cs s + setup.program.burst cs.length := by
  unfold seed
  split
  · exact Nat.le_add_right (potential setup cs s) _
  rename_i hne
  obtain ⟨n, hn⟩ := List.exists_mem_of_ne_nil entries (by simpa using hne)
  have hc := hF.rule .methodContext (hF.rule .occurs (hF.rule .entry (hF.entry n hn)))
  refine Ends.bind ((acts_contextId hs hc).and
    ((respects_contextId frame_adds setup.selector.entryContext).ends s)) ?_ ?_
  · rintro k t ⟨⟨ht, hk⟩, hgrows, htodo⟩
    have hle : potential setup cs t ≤ _ := potential_le setup hgrows htodo
    refine Ends.mono (ends_seedEntries_potential hset hF ht.sound hk entries hF.entry) ?_ ?_
    · intro _ u hu
      omega
    · intro _ u hu
      omega
  · rintro e t ⟨-, hgrows, htodo⟩
    have hle : potential setup cs t ≤ _ := potential_le setup hgrows htodo
    omega

theorem potential_seed_lt (hset : setup.WellFormed)
    (hF : Closed setup entries (setup.program.InScope cs)) :
    potential setup cs (after (seed setup entries) (.initial order)) <
      setup.program.stepsWithin cs.length := by
  have hinit := potential_initial_le setup cs order
  have hseed : potential setup cs (after (seed setup entries) (.initial order)) ≤
      potential setup cs (.initial order) + setup.program.burst cs.length :=
    (ends_seed_potential hset hF (sound_initial hF)).after (fun _ _ h => h) fun _ _ h => h
  unfold Program.stepsWithin
  omega

/-! ## The bound holds -/

/-- With a selector that keeps to a list of contexts, stepping stops within a number of steps that
depends on the length of the list only, and no run lacks fuel. -/
theorem stops_of_keepsTo (hset : setup.WellFormed) (hk : setup.KeepsTo cs) (order : WorklistOrder)
    (hentries : ∀ m ∈ entries, m < setup.program.methods.size) {fuel : Nat}
    (hfuel : setup.program.stepsWithin cs.length ≤ fuel) :
    (∃ n ≤ setup.program.stepsWithin cs.length,
      StopsAfter setup fuel n (after (seed setup entries) (.initial order))) ∧
    ∀ e t, run setup fuel (after (seed setup entries) (.initial order)) = .error e t →
      e ≠ .outOfFuel := by
  have hF : Closed setup entries (setup.program.InScope cs) := closed_inScope hset hk hentries
  have hs : (after (seed setup entries) (.initial order)).Sound setup (setup.program.InScope cs) :=
    (Visits.seed : Visits setup entries order _).sound hset hF
  have hlt : potential setup cs (after (seed setup entries) (.initial order)) <
      setup.program.stepsWithin cs.length := potential_seed_lt hset hF
  constructor
  · obtain ⟨n, hn, hstops⟩ := exists_stopsAfter hset hF _ _ hs (Nat.le_refl _) (hlt.trans_le hfuel)
    exact ⟨n, by omega, hstops⟩
  · intro e t h
    exact (ends_run_potential hset hF fuel hs (hlt.trans_le hfuel)).failed_of_eq h

/-- For every checked program, every shipped policy with any depths, both orders and all entries that
exist, stepping stops within a number of steps that depends on the program and the depths only. -/
theorem steps_le_stepBound {p : Program} (hp : p.validate = .ok ()) (policy : ContextPolicy)
    (k heapK : Nat) (order : WorklistOrder) (entries : List MethodId)
    (hentries : ∀ m ∈ entries, m < p.methods.size) (fuel : Nat) (hfuel : p.stepBound k heapK ≤ fuel) :
    (∃ n ≤ p.stepBound k heapK, StopsAfter (p.setup (policy.selector k heapK)) fuel n
      (after (seed (p.setup (policy.selector k heapK)) entries) (.initial order))) ∧
    ∀ e t, run (p.setup (policy.selector k heapK)) fuel
        (after (seed (p.setup (policy.selector k heapK)) entries) (.initial order)) = .error e t →
      e ≠ .outOfFuel := by
  have hset : (p.setup (policy.selector k heapK)).WellFormed := Program.wellFormed_setup hp
  have hle : p.stepsWithin (p.contextsUpTo (max k heapK)).length ≤ p.stepBound k heapK :=
    Program.stepsWithin_mono (Program.length_contextsUpTo_le _)
  have hkeeps := Program.keepsTo_contextsUpTo hp policy k heapK
  obtain ⟨⟨n, hn, hstops⟩, hrun⟩ :=
    stops_of_keepsTo hset hkeeps order hentries (hle.trans hfuel)
  exact ⟨⟨n, hn.trans hle, hstops⟩, hrun⟩

/-- The small program stops under two receiver objects. -/
theorem steps_le_stepBound_sample :
    Sample.program.validate = .ok () ∧ (∀ m ∈ [0], m < Sample.program.methods.size) ∧
    ∃ n ≤ Sample.program.stepBound 2 1,
      StopsAfter (Sample.program.setup (ContextPolicy.object.selector 2 1))
        (Sample.program.stepBound 2 1) n
        (after (seed (Sample.program.setup (ContextPolicy.object.selector 2 1)) [0])
          (.initial .lifo)) := by
  have hentries : ∀ m ∈ [0], m < Sample.program.methods.size := by decide
  exact ⟨Sample.validate_program, hentries,
    (steps_le_stepBound Sample.validate_program .object 2 1 .lifo [0] hentries _ (Nat.le_refl _)).1⟩

end Solver

end PointsTo
