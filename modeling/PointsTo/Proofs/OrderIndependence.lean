import Mathlib.Data.List.Sigma
import PointsTo.Analysis.Summary
import PointsTo.Proofs.Projection
import PointsTo.Proofs.Termination

/-!
# The order of the work does not matter

Two runs on one program share no state: they hand out other ids, add edges at other moments and split
what arrives differently. But each finds exactly what is derivable, so they find the same
(`solve_order_independent`), and since every id stands for one thing they have handed out equally many.
Nor can one order end well where another meets a fault or goes on for ever.
-/

namespace PointsTo

/-! ## Counting ids by what they stand for -/

/-- A list is no longer than another if its members stand for different things and the other list has a
member for each of them. -/
theorem length_le_of_values {α β γ : Type} {xs : List α} {ys : List β} {f : α → Option γ}
    {g : β → Option γ} (hxs : xs.Nodup) (hf : ∀ x ∈ xs, ∃ c, f x = some c)
    (hinj : ∀ x y c, f x = some c → f y = some c → x = y)
    (hsub : ∀ x ∈ xs, ∀ c, f x = some c → ∃ y ∈ ys, g y = some c) : xs.length ≤ ys.length := by
  have hlen : (xs.filterMap f).length = xs.length := by
    clear hxs hsub
    induction xs with
    | nil => rfl
    | cons x xs ih =>
      obtain ⟨c, hc⟩ := hf x List.mem_cons_self
      rw [List.filterMap_cons_some hc, List.length_cons, List.length_cons,
        ih fun y hy => hf y (List.mem_cons_of_mem x hy)]
  have hnodup : (xs.filterMap f).Nodup := hxs.filterMap hinj
  have hmem : xs.filterMap f ⊆ ys.filterMap g := by
    intro c hc
    obtain ⟨x, hx, hxc⟩ := List.mem_filterMap.1 hc
    obtain ⟨y, hy, hyc⟩ := hsub x hx c hxc
    exact List.mem_filterMap.2 ⟨y, hy, hyc⟩
  calc xs.length = (xs.filterMap f).length := hlen.symm
    _ ≤ (ys.filterMap g).length := (hnodup.subperm hmem).length_le
    _ ≤ ys.length := List.length_filterMap_le g ys

/-- A table has no more ids than another if what its ids stand for the other knows as well. -/
theorem size_le_of_values {γ : Type} {n m : Nat} {f g : Nat → Option γ}
    (hf : ∀ i, i < n → ∃ c, f i = some c) (hinj : ∀ i j c, f i = some c → f j = some c → i = j)
    (hg : ∀ j c, g j = some c → j < m) (hsub : ∀ i c, f i = some c → ∃ j, g j = some c) : n ≤ m := by
  have hle : (List.range n).length ≤ (List.range m).length := by
    refine length_le_of_values (f := f) (g := g) List.nodup_range (fun i hi => hf i (List.mem_range.1 hi)) hinj ?_
    intro i _ c hc
    obtain ⟨j, hj⟩ := hsub i c hc
    exact ⟨j, List.mem_range.2 (hg j c hj), hj⟩
  simpa using hle

namespace FlowGraph

variable {g : FlowGraph}

theorem nodup_edges (h : ∀ i, (g.successors i).Nodup) : g.edges.Nodup := by
  rw [edges, List.nodup_flatMap]
  constructor
  · rintro ⟨ts, i⟩ hmem
    have hts : g.successors i = ts := by
      have hget := List.mem_zipIdx_iff_getElem?.1 hmem
      rw [Array.getElem?_toList] at hget
      rw [successors, hget]
      rfl
    have hnodup := h i
    rw [hts] at hnodup
    exact hnodup.map fun a b hab => (Prod.mk.inj hab).2
  · have hsnd := List.nodup_zipIdx_map_snd g.targets.toList
    rw [List.Nodup, List.pairwise_map] at hsnd
    refine hsnd.imp ?_
    rintro ⟨ts, i⟩ ⟨us, j⟩ hij p hp hq
    obtain ⟨a, -, rfl⟩ := List.mem_map.1 hp
    obtain ⟨b, -, hb⟩ := List.mem_map.1 hq
    exact hij (Prod.mk.inj hb).1.symm

end FlowGraph

namespace State

variable {setup : Setup} {s t : State}

section

variable (hs : s.WellFormed) (h : ∀ f, s.Found f → t.Found f)

include hs h

omit hs in
theorem contexts_le : s.arena.contexts.size ≤ t.arena.contexts.size := by
  refine size_le_of_values (fun i hi => Interner.lt_size_iff.1 hi)
    (fun i j c => Interner.eq_of_get?) (fun j c => Interner.lt_size_of_get?) ?_
  exact fun i c hc => h (.context c) ⟨i, hc⟩

theorem objects_le : s.arena.objects.size ≤ t.arena.objects.size := by
  refine size_le_of_values hs.arena.object (fun i j o => Arena.eq_of_object?)
    (fun j o => Arena.lt_of_object?) ?_
  exact fun i o ho => h (.object o) ⟨i, ho⟩

theorem pointers_le : s.arena.pointers.size ≤ t.arena.pointers.size := by
  refine size_le_of_values hs.arena.location (fun i j l => Arena.eq_of_location?)
    (fun j l => Arena.lt_of_location?) ?_
  exact fun i l hl => h (.location l) ⟨i, hl⟩

theorem reachable_le : s.callGraph.reachable.length ≤ t.callGraph.reachable.length := by
  refine length_le_of_values (g := t.arena.method?) hs.nodup_reachable
    (fun i hi => hs.arena.method i (hs.reachable i hi)) (fun i j m => Arena.eq_of_method?) ?_
  exact fun i hi m hm => h (.reachable m) ⟨i, hi, hm⟩

/-- What a call edge stands for. -/
def callOf (s : State) (e : CallEdge CSSiteId CSMethodId) :
    Option (EdgeKind × SiteInstance × MethodInstance) :=
  (s.arena.site? e.site).bind fun x => (s.arena.method? e.callee).map (e.kind, x, ·)

omit hs h in
theorem callOf_eq_some_iff {e : CallEdge CSSiteId CSMethodId} {kind : EdgeKind} {x : SiteInstance}
    {m : MethodInstance} : s.callOf e = some (kind, x, m) ↔
      e.kind = kind ∧ s.arena.site? e.site = some x ∧ s.arena.method? e.callee = some m := by
  simp only [callOf, Option.bind_eq_some_iff, Option.map_eq_some_iff, Prod.mk.injEq]
  constructor
  · rintro ⟨y, hy, n, hn, rfl, rfl, rfl⟩
    exact ⟨rfl, hy, hn⟩
  · rintro ⟨rfl, hx, hm⟩
    exact ⟨x, hx, m, hm, rfl, rfl, rfl⟩

theorem edges_le : s.callGraph.edges.length ≤ t.callGraph.edges.length := by
  refine length_le_of_values (f := s.callOf) (g := t.callOf) hs.nodup_edges.of_map ?_ ?_ ?_
  · intro e he
    obtain ⟨hsite, hcallee⟩ := hs.edges e he
    obtain ⟨x, hx⟩ := hs.arena.site e.site hsite
    obtain ⟨m, hm⟩ := hs.arena.method e.callee hcallee
    exact ⟨(e.kind, x, m), callOf_eq_some_iff.2 ⟨rfl, hx, hm⟩⟩
  · rintro ⟨kind, i, j⟩ ⟨kind', i', j'⟩ ⟨k, x, m⟩ he he'
    obtain ⟨rfl, hx, hm⟩ := callOf_eq_some_iff.1 he
    obtain ⟨rfl, hx', hm'⟩ := callOf_eq_some_iff.1 he'
    obtain rfl : i = i' := Arena.eq_of_site? hx hx'
    obtain rfl : j = j' := Arena.eq_of_method? hm hm'
    rfl
  · rintro e he ⟨kind, x, m⟩ hc
    obtain ⟨hk, hx, hm⟩ := callOf_eq_some_iff.1 hc
    obtain ⟨e', he', hk', hx', hm'⟩ := h (.call kind x m) ⟨e, he, hk, hx, hm⟩
    exact ⟨e', he', callOf_eq_some_iff.2 ⟨hk', hx', hm'⟩⟩

/-- What a flow edge stands for. -/
def flowOf (s : State) (e : PointerId × PointerId) : Option (Location × Location) :=
  (s.arena.location? e.1).bind fun l => (s.arena.location? e.2).map (l, ·)

omit hs h in
theorem flowOf_eq_some_iff {e : PointerId × PointerId} {l l' : Location} :
    s.flowOf e = some (l, l') ↔ s.arena.location? e.1 = some l ∧ s.arena.location? e.2 = some l' := by
  simp only [flowOf, Option.bind_eq_some_iff, Option.map_eq_some_iff, Prod.mk.injEq]
  constructor
  · rintro ⟨m, hm, m', hm', rfl, rfl⟩
    exact ⟨hm, hm'⟩
  · rintro ⟨hl, hl'⟩
    exact ⟨l, hl, l', hl', rfl, rfl⟩

theorem flow_le : s.flow.edgeCount ≤ t.flow.edgeCount := by
  refine length_le_of_values (f := s.flowOf) (g := t.flowOf) (FlowGraph.nodup_edges hs.nodup_flow)
    ?_ ?_ ?_
  · rintro ⟨i, j⟩ he
    obtain ⟨hi, hj⟩ := hs.flow i j (FlowGraph.mem_edges_iff.1 he)
    obtain ⟨l, hl⟩ := hs.arena.location i hi
    obtain ⟨l', hl'⟩ := hs.arena.location j hj
    exact ⟨(l, l'), flowOf_eq_some_iff.2 ⟨hl, hl'⟩⟩
  · rintro ⟨i, j⟩ ⟨i', j'⟩ ⟨l, l'⟩ he he'
    obtain ⟨hl, hl'⟩ := flowOf_eq_some_iff.1 he
    obtain ⟨hm, hm'⟩ := flowOf_eq_some_iff.1 he'
    obtain rfl : i = i' := Arena.eq_of_location? hl hm
    obtain rfl : j = j' := Arena.eq_of_location? hl' hm'
    rfl
  · rintro ⟨i, j⟩ he ⟨l, l'⟩ hc
    obtain ⟨hl, hl'⟩ := flowOf_eq_some_iff.1 hc
    obtain ⟨i', j', hj', hm, hm'⟩ := h (.flow l l') ⟨i, j, FlowGraph.mem_edges_iff.1 he, hl, hl'⟩
    exact ⟨(i', j'), FlowGraph.mem_edges_iff.2 hj', flowOf_eq_some_iff.2 ⟨hm, hm'⟩⟩

end

/-- Two states that find the same have counted the same misses. -/
theorem dispatchMisses_eq (hs : s.Counted setup) (ht : t.Counted setup)
    (h : ∀ f, s.Found f ↔ t.Found f) : s.stats.dispatchMisses = t.stats.dispatchMisses := by
  obtain ⟨ps, hps, hmem, hcount⟩ := hs
  obtain ⟨qs, hqs, hmem', hcount'⟩ := ht
  have hperm : ps.Perm qs := by
    rw [List.perm_ext_iff_of_nodup hps hqs]
    intro p
    rw [hmem, hmem', h]
  rw [hcount, hcount']
  exact (hperm.map _).sum_nat

/-- Two states that find the same have the same sizes. -/
theorem stats_eq (hs : s.WellFormed) (ht : t.WellFormed) (hcs : s.Counted setup)
    (hct : t.Counted setup) (h : ∀ f, s.Found f ↔ t.Found f) (name : String) (heap : Heap)
    (ms : Float) :
    { (Solution.mk name heap s).stats ms with arrivals := 0, propagations := 0 } =
      { (Solution.mk name heap t).stats ms with arrivals := 0, propagations := 0 } := by
  have hst : ∀ f, s.Found f → t.Found f := fun f => (h f).1
  have hts : ∀ f, t.Found f → s.Found f := fun f => (h f).2
  have hmethods : (Solution.mk name heap s).reachableMethods =
      (Solution.mk name heap t).reachableMethods := by
    refine IdSet.ext_mem fun m => ?_
    rw [Solution.mem_reachableMethods_iff hs, Solution.mem_reachableMethods_iff ht]
    exact exists_congr fun c => h (.reachable ⟨c, m⟩)
  simp only [Solution.stats, Solution.arena_eq, AnalysisStats.mk.injEq, hmethods, true_and, and_true]
  exact ⟨Nat.le_antisymm (reachable_le hs hst) (reachable_le ht hts),
    Nat.le_antisymm (contexts_le hst) (contexts_le hts),
    Nat.le_antisymm (objects_le hs hst) (objects_le ht hts),
    Nat.le_antisymm (pointers_le hs hst) (pointers_le ht hts),
    Nat.le_antisymm (flow_le hs hst) (flow_le ht hts),
    Nat.le_antisymm (edges_le hs hst) (edges_le ht hts), dispatchMisses_eq hcs hct h⟩

end State

namespace Solver

variable {setup : Setup} {entries entries' : List MethodId} {order order' : WorklistOrder}

/-- If one run ends well, so does any other run from the same entries, with enough fuel. -/
theorem exists_solve_of_solve (hset : setup.WellFormed) (hmem : ∀ m, m ∈ entries ↔ m ∈ entries')
    {n : Nat} {s : State} (h : solve setup n entries (.initial order) = .ok () s) :
    ∃ n' t, solve setup n' entries' (.initial order') = .ok () t := by
  obtain ⟨-, hcounted, hcomplete⟩ := outcome_of_solve hset h
  have hclosed : Closed setup entries' s.Found :=
    hcomplete.closed.of_subset fun m hm => (hmem m).2 hm
  have hne : entries' ≠ [] := by
    obtain ⟨m, hm⟩ := List.exists_mem_of_ne_nil _ (ne_nil_of_solve h)
    exact List.ne_nil_of_mem ((hmem m).1 hm)
  -- what the first run has found holds no fault, so the second run cannot meet one
  exact exists_solve hset { hcomplete with closed := hclosed } (finite_found hcounted) hne order'

/-- Runs from the same entries find the same, whatever their order. -/
theorem found_iff_of_solve (hset : setup.WellFormed) (hmem : ∀ m, m ∈ entries ↔ m ∈ entries')
    {n n' : Nat} {s t : State} (hs : solve setup n entries (.initial order) = .ok () s)
    (ht : solve setup n' entries' (.initial order') = .ok () t) (f : Fact) :
    s.Found f ↔ t.Found f := by
  rw [found_iff_derivable hset hs, found_iff_derivable hset ht]
  exact ⟨Derivable.mono fun m => (hmem m).1, Derivable.mono fun m => (hmem m).2⟩

/-- Of two runs on a checked program from the same entries, listed in any order and with any
repetitions, and with any selector, one ends well in one order of the worklist exactly if the other does
in another, given fuel enough; and then both find the same and have the same sizes. -/
theorem solve_order_independent {p : Program} (hp : p.validate = .ok ()) (selector : Selector)
    (order order' : WorklistOrder) (entries entries' : List MethodId)
    (hmem : ∀ m, m ∈ entries ↔ m ∈ entries') :
    ((∃ n s, solve (p.setup selector) n entries (.initial order) = .ok () s) ↔
      ∃ n t, solve (p.setup selector) n entries' (.initial order') = .ok () t) ∧
    ∀ n n' s t, solve (p.setup selector) n entries (.initial order) = .ok () s →
      solve (p.setup selector) n' entries' (.initial order') = .ok () t →
      s.WellFormed ∧ t.WellFormed ∧ (∀ f, s.Found f ↔ t.Found f) ∧
        ∀ name heap ms,
          { (Solution.mk name heap s).stats ms with arrivals := 0, propagations := 0 } =
            { (Solution.mk name heap t).stats ms with arrivals := 0, propagations := 0 } := by
  have hset : (p.setup selector).WellFormed := Program.wellFormed_setup hp
  refine ⟨⟨?_, ?_⟩, ?_⟩
  · rintro ⟨n, s, hs⟩
    exact exists_solve_of_solve hset hmem hs
  · rintro ⟨n, t, ht⟩
    exact exists_solve_of_solve hset (fun m => (hmem m).symm) ht
  · intro n n' s t hs ht
    obtain ⟨hsound, hcounted, -⟩ := outcome_of_solve hset hs
    obtain ⟨hsound', hcounted', -⟩ := outcome_of_solve hset ht
    have hfound := found_iff_of_solve hset hmem hs ht
    exact ⟨hsound.wellFormed, hsound'.wellFormed, hfound,
      State.stats_eq hsound.wellFormed hsound'.wellFormed hcounted hcounted' hfound⟩

/-- The small program is solved in both orders, from its entry listed once or twice. -/
theorem solve_order_independent_sample :
    (∀ m, m ∈ [0] ↔ m ∈ [0, 0]) ∧
    ((∃ n s, solve (Sample.program.setup (.objectSensitive 2 1)) n [0] (.initial .fifo) = .ok () s) ↔
      ∃ n t, solve (Sample.program.setup (.objectSensitive 2 1)) n [0, 0] (.initial .lifo) = .ok () t) ∧
    ∃ n n' s t, solve (Sample.program.setup (.objectSensitive 2 1)) n [0] (.initial .fifo) = .ok () s ∧
      solve (Sample.program.setup (.objectSensitive 2 1)) n' [0, 0] (.initial .lifo) = .ok () t ∧
      ∀ f, s.Found f ↔ t.Found f := by
  have hmem : ∀ m : Nat, m ∈ [0] ↔ m ∈ [0, 0] := by simp
  obtain ⟨⟨⟩, s, hs⟩ := exists_eq_ok (by decide +kernel :
    Ends (solve (Sample.program.setup (.objectSensitive 2 1)) 20 [0]) (.initial .fifo)
      (fun _ _ => True) fun _ _ => False)
  obtain ⟨⟨⟩, t, ht⟩ := exists_eq_ok (by decide +kernel :
    Ends (solve (Sample.program.setup (.objectSensitive 2 1)) 20 [0, 0]) (.initial .lifo)
      (fun _ _ => True) fun _ _ => False)
  have hboth := solve_order_independent Sample.validate_program (.objectSensitive 2 1) .fifo .lifo
    [0] [0, 0] hmem
  exact ⟨hmem, hboth.1, 20, 20, s, t, hs, ht, (hboth.2 20 20 s t hs ht).2.2.1⟩

end Solver

end PointsTo
