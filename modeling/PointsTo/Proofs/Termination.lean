import Mathlib.Data.Set.Finite.Basic
import PointsTo.Proofs.LeastSolution

/-!
# Runs that end

A selector may invent new contexts for ever, so not every run ends. But if some family of facts misses
nothing and is finite, every run ends well, whatever its order: there is no fault that it could meet,
and it cannot go on finding new facts.
-/

namespace PointsTo.Solver

variable {setup : Setup} {entries : List MethodId} {F : Fact → Prop} {s t u : State}

/-- The facts by which progress is measured. -/
def Marks : Fact → Prop
  | .reachable _ => True
  | .pointsTo _ _ => True
  | _ => False

/-- The facts that can still be found. -/
def missing (F : Fact → Prop) (s : State) : Set Fact := {f | F f ∧ Marks f ∧ ¬s.Found f}

theorem missing_subset (h : s.Grows t) : missing F t ⊆ missing F s := by
  rintro f ⟨hf, hm, hn⟩
  exact ⟨hf, hm, fun hs => hn (h.found hs)⟩

theorem finite_missing (hfin : {f | F f ∧ Marks f}.Finite) (s : State) : (missing F s).Finite :=
  hfin.subset fun _ hf => ⟨hf.1, hf.2.1⟩

/-- How many facts can still be found. -/
noncomputable def missingCount (hfin : {f | F f ∧ Marks f}.Finite) (s : State) : Nat :=
  (finite_missing hfin s).toFinset.card

theorem missingCount_le (hfin : {f | F f ∧ Marks f}.Finite) (hgrows : s.Grows t) :
    missingCount hfin t ≤ missingCount hfin s :=
  Finset.card_le_card (Set.Finite.toFinset_subset_toFinset.2 (missing_subset hgrows))

/-- Finding one of the facts that are missing leaves fewer of them. -/
theorem missingCount_lt (hfin : {f | F f ∧ Marks f}.Finite) (hgrows : s.Grows t)
    (ht : t.Sound setup F) {f : Fact} (hm : Marks f) (hf : t.Found f) (hn : ¬s.Found f) :
    missingCount hfin t < missingCount hfin s := by
  refine Finset.card_lt_card (Set.Finite.toFinset_ssubset_toFinset.2 ⟨missing_subset hgrows, ?_⟩)
  intro hsub
  have hmiss : f ∈ missing F s := ⟨ht.knows f (Or.inl hf), hm, hn⟩
  exact (hsub hmiss).2.2 hf

/-- Progress leaves fewer facts to find, or as many and less to do. -/
theorem measure_lt (hfin : {f | F f ∧ Marks f}.Finite) (hgrows : s.Grows t)
    (ht : t.Sound setup F) (h : Progresses s t) :
    Prod.Lex (· < ·) (· < ·) (missingCount hfin t, todo t) (missingCount hfin s, todo s) := by
  rcases h with ⟨m, hf, hn⟩ | ⟨l, o, hf, hn⟩ | hlt
  · exact .left _ _ (missingCount_lt (f := .reachable m) hfin hgrows ht trivial hf hn)
  · exact .left _ _ (missingCount_lt (f := .pointsTo l o) hfin hgrows ht trivial hf hn)
  · rcases Nat.lt_or_eq_of_le (missingCount_le hfin hgrows) with hlt' | heq
    · exact .left _ _ hlt'
    · rw [heq]
      exact .right _ hlt

theorem run_succ_of_idle {n : Nat} (h : advance setup s = .ok .idle t) :
    run setup (n + 1) s = .ok () t := by
  show EStateM.bind (advance setup) _ s = _
  rw [EStateM.bind, h]
  rfl

theorem run_succ_of_advance {n : Nat} {done : Progress} (h : advance setup s = .ok done t)
    (hne : done ≠ .idle) : run setup (n + 1) s = run setup n t := by
  show EStateM.bind (advance setup) _ s = _
  rw [EStateM.bind, h]
  cases done with
  | wired | handled => rfl
  | idle => exact absurd rfl hne

/-- With enough fuel a run ends well if some family that misses nothing is finite. -/
theorem exists_run (hset : setup.WellFormed) (hF : Complete setup entries F)
    (hfin : {f | F f ∧ Marks f}.Finite) (s : State) (hs : s.Sound setup F) :
    ∃ n t, run setup n s = .ok () t := by
  have hends := ends_advance hset hF.closed hs
  cases hadv : advance setup s with
  | error e t =>
    obtain ⟨-, f, hf, he⟩ := hends.failed_of_eq hadv
    exact absurd he (hF.faultless f e hf)
  | ok done t =>
    obtain ⟨hstep, hdone⟩ := hends.ok_of_eq hadv
    -- either nothing waits, or the measure falls and the rest of the run ends by induction
    rcases hdone with ⟨rfl, -, -⟩ | ⟨hne, hprog⟩
    · exact ⟨1, t, run_succ_of_idle hadv⟩
    · have hlt := measure_lt hfin hstep.grows hstep.sound hprog
      obtain ⟨n, u, hn⟩ := exists_run hset hF hfin t hstep.sound
      exact ⟨n + 1, u, (run_succ_of_advance hadv hne).trans hn⟩
termination_by (missingCount hfin s, todo s)
decreasing_by exact hlt

theorem exists_solve (hset : setup.WellFormed) (hF : Complete setup entries F)
    (hfin : {f | F f ∧ Marks f}.Finite) (hne : entries ≠ []) (order : WorklistOrder) :
    ∃ n t, solve setup n entries (.initial order) = .ok () t := by
  have hs : (State.initial order).Sound setup F := sound_initial hF.closed
  have hends := ends_seed hset hF.closed hs hne
  cases hseed : seed setup entries (.initial order) with
  | error e t =>
    obtain ⟨-, f, hf, he⟩ := hends.failed_of_eq hseed
    exact absurd he (hF.faultless f e hf)
  | ok a t =>
    obtain ⟨hadv, -⟩ := hends.ok_of_eq hseed
    obtain ⟨n, u, hn⟩ := exists_run hset hF hfin t hadv.sound
    refine ⟨n, u, ?_⟩
    show EStateM.bind (seed setup entries) _ (.initial order) = _
    rw [EStateM.bind, hseed]
    exact hn

/-- What a state finds is finite. -/
theorem finite_found (hc : s.Counted setup) : {f | s.Found f ∧ Marks f}.Finite := by
  obtain ⟨ps, -, hmem, -⟩ := hc
  have hsub : {f | s.Found f ∧ Marks f} ⊆
      {f | f ∈ (s.callGraph.reachable.filterMap s.arena.method?).map Fact.reachable ++
        ps.map fun p => Fact.pointsTo p.1 p.2} := by
    rintro f ⟨hf, hm⟩
    cases f with
    | reachable m =>
      obtain ⟨i, hi, hm⟩ := hf
      exact List.mem_append_left _ (List.mem_map.2 ⟨m, List.mem_filterMap.2 ⟨i, hi, hm⟩, rfl⟩)
    | pointsTo l o =>
      exact List.mem_append_right _ (List.mem_map.2 ⟨(l, o), (hmem (l, o)).2 hf, rfl⟩)
    | _ => exact hm.elim
  exact (List.finite_toSet _).subset hsub

end PointsTo.Solver
