import PointsTo.Analysis.Solution
import PointsTo.Proofs.Knowledge
import PointsTo.Proofs.Validity

/-!
# Reading a solution without contexts

Each answer of a solution without contexts is the image of what its state has found: a place points to
an object exactly if one of its locations points to the object under some heap context
(`mem_pointsTo_iff`), and likewise for reachable methods and for callees. The state is the one that the
solver ends in for the program's entry methods (`solve_of_analyze`).
-/

namespace PointsTo

/-- The place of a location. -/
def Location.place : Location → Place
  | .var _ v => .var v
  | .instanceField o f => .instanceField o.object f
  | .staticField f => .staticField f
  | .arraySlots o => .arraySlots o.object

namespace Arena

variable {a : Arena} {p : Pointer} {l : Location}

theorem place?_of_locate? (h : a.locate? p = some l) : a.place? p = some l.place := by
  cases l with
  | var c v =>
    obtain ⟨k, rfl, -⟩ := locate?_eq_var_iff.1 h
    rfl
  | instanceField o f =>
    obtain ⟨k, rfl, hk⟩ := locate?_eq_instanceField_iff.1 h
    obtain ⟨c, hc, -⟩ := object?_eq_some_iff.1 hk
    rw [place?, hc]
    rfl
  | staticField f =>
    obtain rfl := locate?_eq_staticField_iff.1 h
    rfl
  | arraySlots o =>
    obtain ⟨k, rfl, hk⟩ := locate?_eq_arraySlots_iff.1 h
    obtain ⟨c, hc, -⟩ := object?_eq_some_iff.1 hk
    rw [place?, hc]
    rfl

/-- A pointer is listed with its set. -/
theorem mem_pointerSets_iff {xs : PointsToSet} :
    (p, xs) ∈ a.pointerSets ↔ ∃ i, a.pointers.get? i = some p ∧ a.pointsTo i = xs := by
  rw [pointerSets, List.mem_iff_getElem?]
  constructor
  · rintro ⟨i, hi⟩
    obtain ⟨hp, hxs⟩ := List.getElem?_zip_eq_some.1 hi
    rw [Array.getElem?_toList] at hxs
    refine ⟨i, by simpa [Interner.toList, Interner.get?] using hp, ?_⟩
    rw [pointsTo, hxs]
    rfl
  · rintro ⟨i, hp, rfl⟩
    have hlt : i < a.pointsToSets.size := by
      rw [a.size_pointsToSets]
      exact Interner.lt_size_of_get? hp
    refine ⟨i, List.getElem?_zip_eq_some.2 ⟨?_, ?_⟩⟩
    · simpa [Interner.toList, Interner.get?] using hp
    · rw [Array.getElem?_toList, pointsTo, Array.getElem?_eq_getElem hlt]
      rfl

theorem mem_erase_iff {xs : PointsToSet} {o : ObjId} :
    o ∈ a.erase xs ↔ ∃ j ∈ xs, ∃ r, a.objects.get? j = some r ∧ r.object = o := by
  simp only [erase, objectsIn, IdSet.mem_ofList, List.mem_map, List.mem_filterMap, IdSet.mem_toList]
  constructor
  · rintro ⟨r, ⟨j, hj, hr⟩, rfl⟩
    exact ⟨j, hj, r, hr, rfl⟩
  · rintro ⟨j, hj, r, hr, rfl⟩
    exact ⟨r, ⟨j, hj, hr⟩, rfl⟩

end Arena

/-! ## What an analysis runs -/

theorem solve_of_solveFrom {setup : Setup} {order : WorklistOrder} {entries : List MethodId}
    {s : Solution} (h : solveFrom setup order entries = .ok s) :
    s.heap = setup.heap ∧
      Solver.solve setup Solver.ampleFuel entries (.initial order) = .ok () s.state := by
  unfold solveFrom at h
  split at h
  · rename_i state hs
    cases h
    exact ⟨rfl, hs⟩
  · cases h

/-- A solution is what the solver makes of the entry methods of a checked program. -/
theorem solve_of_analyze {c : Config} {custom : Option Selector} {p : Program} {s : Solution}
    (h : analyze c custom p.indexed = .ok s) :
    p.validate = .ok () ∧ s.heap = .ofProgram p ∧
      ∃ entries, entryMethods c p.indexed = .ok entries ∧
        Solver.solve (p.setup (custom.getD c.selector)) Solver.ampleFuel entries
          (.initial c.worklistOrder) = .ok () s.state := by
  simp only [analyze, bind_eq_ok_iff, mapError_eq_ok_iff] at h
  obtain ⟨_, _, _, hp, _, _, entries, hentries, h⟩ := h
  obtain ⟨hheap, hsolve⟩ := solve_of_solveFrom h
  exact ⟨hp, hheap, entries, hentries, hsolve⟩

/-- A union of sets has the members of all. -/
theorem mem_foldl_union_iff {α : Type} {f : α → IdSet} {xs : List α} {s : IdSet} {i : Nat} :
    i ∈ xs.foldl (fun found x => found.union (f x)) s ↔ i ∈ s ∨ ∃ x ∈ xs, i ∈ f x := by
  induction xs generalizing s with
  | nil => simp
  | cons x xs ih =>
    rw [List.foldl_cons, ih, IdSet.mem_union]
    constructor
    · rintro ((hi | hi) | ⟨y, hy, hi⟩)
      · exact Or.inl hi
      · exact Or.inr ⟨x, List.mem_cons_self, hi⟩
      · exact Or.inr ⟨y, List.mem_cons_of_mem x hy, hi⟩
    · rintro (hi | ⟨y, hy, hi⟩)
      · exact Or.inl (Or.inl hi)
      · rcases List.mem_cons.1 hy with rfl | hy
        · exact Or.inl (Or.inr hi)
        · exact Or.inr ⟨y, hy, hi⟩

/-! ## Answers -/

namespace Solution

variable {s : Solution}

theorem arena_eq : s.arena = s.state.arena := rfl

/-- The set of the pointer holds the object. -/
def HeldAt (s : Solution) (q : Pointer) (r : CSObj) : Prop :=
  ∃ i j, s.arena.pointers.get? i = some q ∧ j ∈ s.arena.pointsTo i ∧ s.arena.objects.get? j = some r

/-- A place points to an object if one of its pointers holds it under some heap context. -/
theorem mem_pointsTo_iff_heldAt {place : Place} {o : ObjId} :
    o ∈ s.pointsTo place ↔ ∃ q h, s.arena.place? q = some place ∧ s.HeldAt q ⟨h, o⟩ := by
  simp only [pointsTo, mem_foldl_union_iff, List.mem_filter, Prod.exists, decide_eq_true_eq]
  constructor
  · rintro (ho | ⟨q, xs, ⟨hmem, hplace⟩, ho⟩)
    · exact absurd ho IdSet.not_mem_empty
    · obtain ⟨i, hi, rfl⟩ := Arena.mem_pointerSets_iff.1 hmem
      obtain ⟨j, hj, r, hr, rfl⟩ := Arena.mem_erase_iff.1 ho
      exact ⟨q, r.heapContext, hplace, i, j, hi, hj, hr⟩
  · rintro ⟨q, h, hplace, i, j, hi, hj, hr⟩
    refine Or.inr ⟨q, _, ⟨Arena.mem_pointerSets_iff.2 ⟨i, hi, rfl⟩, hplace⟩, ?_⟩
    exact Arena.mem_erase_iff.2 ⟨j, hj, _, hr, rfl⟩

/-- In a state in which all ids stand for something, it is one of the locations of the place that points to
the object. -/
theorem mem_pointsTo_iff (hw : s.state.WellFormed) {place : Place} {o : ObjId} :
    o ∈ s.pointsTo place ↔ ∃ l c, l.place = place ∧ s.state.Found (.pointsTo l ⟨c, o⟩) := by
  rw [mem_pointsTo_iff_heldAt]
  constructor
  · rintro ⟨q, h, hplace, i, j, hi, hj, hr⟩
    obtain ⟨l, hl⟩ := hw.arena.location i (Interner.lt_size_of_get? hi)
    obtain ⟨x, hx⟩ := hw.arena.object j (hw.pointsTo i j hj)
    obtain ⟨k, hk, -⟩ := Arena.object?_eq_some_iff.1 hx
    obtain ⟨q', hq', hql⟩ := Arena.location?_eq_some_iff.1 hl
    rw [arena_eq, hq'] at hi
    cases hi
    rw [arena_eq, hk] at hr
    cases hr
    rw [arena_eq, Arena.place?_of_locate? hql, Option.some.injEq] at hplace
    exact ⟨l, x.heapContext, hplace, i, j, hj, hl, hx⟩
  · rintro ⟨l, c, rfl, i, j, hj, hl, ho⟩
    obtain ⟨q, hq, hql⟩ := Arena.location?_eq_some_iff.1 hl
    obtain ⟨k, hk, -⟩ := Arena.object?_eq_some_iff.1 ho
    exact ⟨q, k, Arena.place?_of_locate? hql, i, j, hq, hj, hk⟩

theorem mem_reachableMethods_iff (hw : s.state.WellFormed) {m : MethodId} :
    m ∈ s.reachableMethods ↔ ∃ c, s.state.Found (.reachable ⟨c, m⟩) := by
  simp only [reachableMethods, reachable, arena_eq, IdSet.mem_ofList, List.mem_map,
    List.mem_filterMap]
  constructor
  · rintro ⟨r, ⟨i, hi, hr⟩, rfl⟩
    obtain ⟨n, hn⟩ := hw.arena.method i (hw.reachable i hi)
    obtain ⟨k, hk, -⟩ := Arena.method?_eq_some_iff.1 hn
    rw [hr] at hk
    cases hk
    exact ⟨n.context, i, hi, hn⟩
  · rintro ⟨c, i, hi, hm⟩
    obtain ⟨k, hk, -⟩ := Arena.method?_eq_some_iff.1 hm
    exact ⟨_, ⟨i, hi, hk⟩, rfl⟩

/-- The call edges under contexts are what has been found. -/
theorem exists_callEdge_iff (hw : s.state.WellFormed) {kind : EdgeKind} {site : Site} {m : MethodId} :
    (∃ e ∈ s.callEdges, e.kind = kind ∧ e.site.site = site ∧ e.callee.method = m) ↔
      ∃ c c', s.state.Found (.call kind ⟨c, site⟩ ⟨c', m⟩) := by
  simp only [callEdges, arena_eq, List.mem_filterMap]
  constructor
  · rintro ⟨e', ⟨e, he, hread⟩, rfl, rfl, rfl⟩
    obtain ⟨hx, hm⟩ := hw.edges e he
    obtain ⟨x, hx⟩ := hw.arena.site e.site hx
    obtain ⟨n, hn⟩ := hw.arena.method e.callee hm
    obtain ⟨k, hk, -⟩ := Arena.site?_eq_some_iff.1 hx
    obtain ⟨k', hk', -⟩ := Arena.method?_eq_some_iff.1 hn
    rw [hk, hk'] at hread
    cases hread
    exact ⟨x.context, n.context, e, he, rfl, hx, hn⟩
  · rintro ⟨c, c', e, he, rfl, hx, hm⟩
    obtain ⟨k, hk, -⟩ := Arena.site?_eq_some_iff.1 hx
    obtain ⟨k', hk', -⟩ := Arena.method?_eq_some_iff.1 hm
    refine ⟨⟨e.kind, ⟨k, site⟩, ⟨k', m⟩⟩, ⟨e, he, ?_⟩, rfl, rfl, rfl⟩
    rw [hk, hk']
    rfl

theorem mem_callees_iff (hw : s.state.WellFormed) {site : Site} {m : MethodId} :
    m ∈ s.callees site ↔
      ∃ kind c c', s.state.Found (.call kind ⟨c, site⟩ ⟨c', m⟩) := by
  simp only [callees, IdSet.mem_ofList, List.mem_map, List.mem_filter, decide_eq_true_eq,
    ← exists_callEdge_iff hw]
  constructor
  · rintro ⟨e, ⟨he, hsite⟩, hm⟩
    exact ⟨e.kind, e, he, rfl, hsite, hm⟩
  · rintro ⟨kind, e, he, -, hsite, hm⟩
    exact ⟨e, ⟨he, hsite⟩, hm⟩

end Solution

/-! ## The call graph without contexts -/

namespace CallGraph

variable {S M : Type} [DecidableEq S] [DecidableEq M] {g : CallGraph S M} {e : CallEdge S M}
  {es : List (CallEdge S M)}

theorem edges_foldl_addEntry (ms : List M) (g : CallGraph S M) :
    (ms.foldl addEntry g).edges = g.edges := by
  induction ms generalizing g with
  | nil => rfl
  | cons m ms ih =>
    rw [List.foldl_cons, ih, addEntry]
    split <;> rfl

theorem edges_foldl_addReachable (ms : List M) (g : CallGraph S M) :
    (ms.foldl addReachable g).edges = g.edges := by
  induction ms generalizing g with
  | nil => rfl
  | cons m ms ih =>
    rw [List.foldl_cons, ih, addReachable_eq]
    split <;> rfl

theorem of_mem_edges_foldl_addEdge (h : e ∈ (es.foldl addEdge g).edges) : e ∈ g.edges ∨ e ∈ es := by
  induction es generalizing g with
  | nil => exact Or.inl h
  | cons e' es ih =>
    rcases ih h with he | he
    · rw [addEdge_eq] at he
      split at he
      · exact Or.inl he
      · rcases List.mem_append.1 he with he | he
        · exact Or.inl he
        · exact Or.inr (List.mem_singleton.1 he ▸ List.mem_cons_self)
    · exact Or.inr (List.mem_cons_of_mem e' he)

theorem hasEdge_addEdge {x : S} {m : M} (h : g.hasEdge x m = true ∨ e.site = x ∧ e.callee = m) :
    (g.addEdge e).hasEdge x m = true := by
  rw [addEdge_eq]
  split
  · rename_i hedge
    rcases h with h | ⟨rfl, rfl⟩
    · exact h
    · exact hedge
  · rw [hasEdge_iff] at h ⊢
    rcases h with ⟨e', he', hends⟩ | hends
    · exact ⟨e', List.mem_append_left _ he', hends⟩
    · exact ⟨e, List.mem_append_right _ (List.mem_singleton.2 rfl), hends⟩

/-- Of the edges added, one between each pair of ends stays. -/
theorem hasEdge_foldl_addEdge {x : S} {m : M}
    (h : g.hasEdge x m = true ∨ ∃ e ∈ es, e.site = x ∧ e.callee = m) :
    (es.foldl addEdge g).hasEdge x m = true := by
  induction es generalizing g with
  | nil => exact h.resolve_right fun ⟨e, he, _⟩ => absurd he List.not_mem_nil
  | cons e' es ih =>
    refine ih ?_
    rcases h with h | ⟨e, he, hends⟩
    · exact Or.inl (hasEdge_addEdge (Or.inl h))
    · rcases List.mem_cons.1 he with rfl | he
      · exact Or.inl (hasEdge_addEdge (Or.inr hends))
      · exact Or.inr ⟨e, he, hends⟩

end CallGraph

namespace Solution

variable {s : Solution} {setup : Setup} {F : Fact → Prop}

/-- The edges of the call graph without contexts are the call edges under some contexts: although only
one edge of a site and a callee is kept, no kind is lost, as the statement fixes it. -/
theorem mem_callGraph_edges_iff (hs : s.state.Sound setup F) {e : CallEdge Site MethodId} :
    e ∈ s.callGraph.edges ↔
      ∃ c c', s.state.Found (.call e.kind ⟨c, e.site⟩ ⟨c', e.callee⟩) := by
  have hfound : ∀ {e}, e ∈ s.callGraph.edges →
      ∃ c c', s.state.Found (.call e.kind ⟨c, e.site⟩ ⟨c', e.callee⟩) := by
    intro e he
    rcases CallGraph.of_mem_edges_foldl_addEdge he with he | he
    · rw [CallGraph.edges_foldl_addReachable, CallGraph.edges_foldl_addEntry] at he
      exact absurd he List.not_mem_nil
    · obtain ⟨e', he', rfl⟩ := List.mem_map.1 he
      exact (exists_callEdge_iff hs.wellFormed).1 ⟨e', he', rfl, rfl, rfl⟩
  refine ⟨hfound, ?_⟩
  rintro ⟨c, c', hc⟩
  obtain ⟨e', he', -, hsite, hm⟩ := (exists_callEdge_iff hs.wellFormed).2 ⟨c, c', hc⟩
  have hedge : s.callGraph.hasEdge e.site e.callee = true :=
    CallGraph.hasEdge_foldl_addEdge (Or.inr ⟨_, List.mem_map.2 ⟨e', he', rfl⟩, hsite, hm⟩)
  obtain ⟨e'', he'', hsite, hm⟩ := CallGraph.hasEdge_iff.1 hedge
  obtain ⟨d, d', hd⟩ := hfound he''
  obtain ⟨i, hi, hkind⟩ := hs.calls _ _ _ hc
  obtain ⟨j, hj, hkind'⟩ := hs.calls _ _ _ hd
  -- both edges belong to the same call statement
  have hij : some (Stmt.call i) = some (.call j) := by
    rw [← hi, ← hj, hsite]
  cases hij
  obtain ⟨kind, site, callee⟩ := e
  obtain ⟨kind'', site'', callee''⟩ := e''
  obtain rfl : site'' = site := hsite
  obtain rfl : callee'' = callee := hm
  obtain rfl : kind'' = kind := hkind'.trans hkind.symm
  exact he''

end Solution

end PointsTo
