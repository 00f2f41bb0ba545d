import Mathlib.Tactic.TFAE
import PointsTo.Proofs.HierarchyClosure
import PointsTo.Proofs.Locality

/-!
# All views of the calls agree

A solution answers questions about calls in several ways: from the reachable methods and the call edges
under contexts, from the call graph in which the contexts are erased, and from the graph over methods drawn
of that. Each has a way of its own to get rid of repetitions, and the drawing leaves out an edge whose ends
are not both drawn. None of this can be seen in the answers of a finished analysis (`call_views_agree`). For
the drawing this takes more than a look at the edges: that the caller of an edge is reachable is a property
of what the rules derive (`reachable_of_call`).
-/

namespace PointsTo

namespace CallGraph

variable {S M : Type} [DecidableEq S] [DecidableEq M] {ms : List M} {g : CallGraph S M} {m : M}

theorem reachable_addReachable (n : M) :
    (g.addReachable n).reachable = insertNew g.reachable n := by
  rw [addReachable_eq, insertNew]
  split <;> rfl

theorem mem_reachable_foldl_addReachable :
    m ∈ (ms.foldl addReachable g).reachable ↔ m ∈ g.reachable ∨ m ∈ ms := by
  induction ms generalizing g with
  | nil => simp
  | cons n ms ih =>
    rw [List.foldl_cons, ih, reachable_addReachable, mem_insertNew, List.mem_cons, or_assoc]

theorem nodup_reachable_foldl_addReachable (h : g.reachable.Nodup) (ms : List M) :
    (ms.foldl addReachable g).reachable.Nodup := by
  induction ms generalizing g with
  | nil => exact h
  | cons n ms ih =>
    refine ih ?_
    rw [reachable_addReachable]
    exact nodup_insertNew h n

end CallGraph

/-- The drawn edge leads from the method in which the site of the call edge stands to the callee, and has
its kind. -/
structure MethodGraph.Draws (g : MethodGraph) (e : CallEdge Site MethodId) (x : Nat × Nat × EdgeKind) :
    Prop where
  source : g.nodes[x.1]? = some e.site.method
  target : g.nodes[x.2.1]? = some e.callee
  kind : x.2.2 = e.kind

namespace CallGraph

variable {g : CallGraph Site MethodId}

theorem getElem?_of_idxOf? {xs : List MethodId} {m : MethodId} {i : Nat} (h : xs.idxOf? m = some i) :
    xs[i]? = some m := by
  obtain ⟨hi, hm, -⟩ := List.idxOf?_eq_some_iff.1 h
  rw [List.getElem?_eq_getElem hi, hm]

/-- If the ends of all edges are drawn, the drawing has one edge for each, in their order. -/
theorem draws_methodGraph
    (h : ∀ e ∈ g.edges, e.site.method ∈ g.reachable ∧ e.callee ∈ g.reachable) :
    List.Forall₂ g.methodGraph.Draws g.edges g.methodGraph.edges := by
  have hposition : ∀ m ∈ g.reachable, ∃ i, g.reachable.idxOf? m = some i := fun m hm =>
    Option.isSome_iff_exists.1 (List.isSome_idxOf?.2 hm)
  show List.Forall₂ _ g.edges (g.edges.filterMap _)
  -- by induction on the edges, while the nodes stay what they are
  generalize g.edges = es at h
  induction es with
  | nil => exact .nil
  | cons e es ih =>
    obtain ⟨hcaller, hcallee⟩ := h e List.mem_cons_self
    obtain ⟨i, hi⟩ := hposition _ hcaller
    obtain ⟨j, hj⟩ := hposition _ hcallee
    rw [List.filterMap_cons_some (b := (i, j, e.kind)) (by rw [hi, hj]; rfl)]
    refine .cons ⟨getElem?_of_idxOf? hi, getElem?_of_idxOf? hj, rfl⟩ (ih ?_)
    intro e' he'
    exact h e' (List.mem_cons_of_mem e he')

end CallGraph

/-- The method instance in which a call stands is reachable. -/
theorem reachable_of_call {p : Program} (hp : p.validate = .ok ()) {selector : Selector}
    {entries : List MethodId} {kind : EdgeKind} {x : SiteInstance} {m : MethodInstance}
    (h : Derivable (p.setup selector) entries (.call kind x m)) :
    Derivable (p.setup selector) entries (.reachable ⟨x.context, x.site.method⟩) := by
  have hlocated : Closed (p.setup selector) entries fun f => Derivable (p.setup selector) entries f ∧
      p.Located (fun m => Derivable (p.setup selector) entries (.reachable m)) f := by
    apply closed_located hp closed_derivable
    · intro m hm
      exact .rule .entry (.entry hm)
    · intro _ _ _ _ _ _ hcall
      exact .rule .callee hcall
  obtain ⟨-, hcaller, -⟩ := hlocated.of_derivable h
  exact hcaller

namespace Solution

variable {s : Solution} {m : MethodId}

/-! ## Reachable methods -/

theorem isReachable_iff : s.isReachable m = true ↔ ∃ r ∈ s.reachable, r.method = m := by
  simp [isReachable]

theorem mem_reachableMethods_iff_exists : m ∈ s.reachableMethods ↔ ∃ r ∈ s.reachable, r.method = m := by
  simp [reachableMethods]

theorem mem_callGraph_reachable_iff :
    m ∈ s.callGraph.reachable ↔ ∃ r ∈ s.reachable, r.method = m := by
  simp only [callGraph, IndexedProgram.reachable_foldl_addEdge,
    CallGraph.mem_reachable_foldl_addReachable, IndexedProgram.reachable_foldl_addEntry, List.mem_map]
  constructor
  · rintro (h | h)
    · exact absurd h List.not_mem_nil
    · exact h
  · exact Or.inr

theorem nodup_callGraph_reachable (s : Solution) : s.callGraph.reachable.Nodup := by
  simp only [callGraph, IndexedProgram.reachable_foldl_addEdge]
  apply CallGraph.nodup_reachable_foldl_addReachable
  rw [IndexedProgram.reachable_foldl_addEntry]
  exact List.nodup_nil

theorem nodup_callGraph_ends (s : Solution) : s.callGraph.ends.Nodup := by
  apply CallGraph.nodup_ends_foldl_addEdge
  rw [CallGraph.ends, CallGraph.edges_foldl_addReachable, CallGraph.edges_foldl_addEntry]
  exact List.nodup_nil

/-- A reachable method has a context under which it is reachable. -/
theorem contextsOf_ne_nil_iff (hw : s.state.WellFormed) :
    s.contextsOf m ≠ [] ↔ ∃ r ∈ s.reachable, r.method = m := by
  constructor
  · intro hne
    obtain ⟨c, hc⟩ := List.exists_mem_of_ne_nil _ hne
    obtain ⟨r, hr, -⟩ := List.mem_filterMap.1 hc
    obtain ⟨hr, hm⟩ := List.mem_filter.1 hr
    exact ⟨r, hr, of_decide_eq_true hm⟩
  · rintro ⟨r, hr, hm⟩ hnil
    obtain ⟨i, hi, hget⟩ := List.mem_filterMap.1 hr
    obtain ⟨x, hx⟩ := hw.arena.method i (hw.reachable i hi)
    obtain ⟨k, hk, hcontext⟩ := Arena.method?_eq_some_iff.1 hx
    rw [arena_eq, hk] at hget
    cases hget
    have hmem : x.context ∈ s.contextsOf m :=
      List.mem_filterMap.2 ⟨_, List.mem_filter.2 ⟨hr, decide_eq_true hm⟩, hcontext⟩
    rw [hnil] at hmem
    exact List.not_mem_nil hmem

/-- Whether a method is reachable can be asked in five ways. -/
theorem reachable_tfae (hw : s.state.WellFormed) (m : MethodId) :
    [s.isReachable m = true, m ∈ s.reachableMethods.toList, s.callGraph.reaches m = true,
      s.contextsOf m ≠ [], s.callGraph.methodGraph.nodes.count m = 1].TFAE := by
  have hnodes : s.callGraph.methodGraph.nodes.count m = 1 ↔ m ∈ s.callGraph.reachable := by
    show s.callGraph.reachable.count m = 1 ↔ m ∈ s.callGraph.reachable
    constructor
    · intro hcount
      exact List.count_pos_iff.1 (hcount ▸ Nat.one_pos)
    · exact List.count_eq_one_of_mem s.nodup_callGraph_reachable
  tfae_have 1 ↔ 2 := by
    rw [isReachable_iff, IdSet.mem_toList, mem_reachableMethods_iff_exists]
  tfae_have 1 ↔ 3 := by
    rw [isReachable_iff, CallGraph.reaches_iff, mem_callGraph_reachable_iff]
  tfae_have 1 ↔ 4 := by
    rw [isReachable_iff, contextsOf_ne_nil_iff hw]
  tfae_have 1 ↔ 5 := by
    rw [isReachable_iff, hnodes, mem_callGraph_reachable_iff]
  tfae_finish

/-! ## Calls -/

theorem mem_callees_iff_mem_callGraph {setup : Setup} {F : Fact → Prop} (hs : s.state.Sound setup F)
    {site : Site} : m ∈ s.callees site ↔ m ∈ s.callGraph.callees site := by
  simp only [mem_callees_iff hs.wellFormed, CallGraph.callees_eq, List.mem_map, List.mem_filter,
    decide_eq_true_eq, mem_callGraph_edges_iff hs]
  constructor
  · rintro ⟨kind, c, c', hcall⟩
    exact ⟨⟨kind, site, m⟩, ⟨⟨c, c', hcall⟩, rfl⟩, rfl⟩
  · rintro ⟨e, ⟨⟨c, c', hcall⟩, rfl⟩, rfl⟩
    exact ⟨e.kind, c, c', hcall⟩

theorem mem_callGraph_edges_iff_exists {setup : Setup} {F : Fact → Prop} (hs : s.state.Sound setup F)
    {e : CallEdge Site MethodId} : e ∈ s.callGraph.edges ↔
      ∃ e' ∈ s.callEdges, e'.kind = e.kind ∧ e'.site.site = e.site ∧ e'.callee.method = e.callee := by
  rw [mem_callGraph_edges_iff hs, exists_callEdge_iff hs.wellFormed]

/-- The call at the site of an edge fixes its kind. -/
theorem kind_eq_of_ends {setup : Setup} {F : Fact → Prop} (hs : s.state.Sound setup F)
    {e e' : CallEdge CSSite CSMethod} (he : e ∈ s.callEdges) (he' : e' ∈ s.callEdges)
    (hsite : e'.site.site = e.site.site) : e'.kind = e.kind := by
  have hkind : ∀ {e : CallEdge CSSite CSMethod}, e ∈ s.callEdges →
      ∃ d, setup.program.stmt? e.site.site = some (.call d) ∧ e.kind = .ofMode d.mode := by
    intro e he
    obtain ⟨c, c', hcall⟩ := (exists_callEdge_iff hs.wellFormed).1 ⟨e, he, rfl, rfl, rfl⟩
    exact hs.calls _ _ _ hcall
  obtain ⟨d, hd, hk⟩ := hkind he
  obtain ⟨d', hd', hk'⟩ := hkind he'
  rw [hsite, hd, Option.some.injEq, Stmt.call.injEq] at hd'
  rw [hk, hk', hd']

end Solution

/-- The views of the calls of a finished analysis agree, for every checked program, every configuration and
every selector. Whether a method is reachable is answered alike by the list of reachable methods, which is
strictly increasing, by the call graph without contexts, by the contexts of the method and by the drawing,
in which it has exactly one node. The callees of a site are listed in strictly increasing order and are
those that the call graph has. Edges under contexts between one site and one callee are of one kind; the
call graph has one edge for all of them, of that kind. And the drawing has one edge for each edge of the
call graph, from the method that holds the site to the callee. -/
theorem call_views_agree {c : Config} {custom : Option Selector} {p : Program} {s : Solution}
    (h : analyze c custom p.indexed = .ok s) :
    (s.reachableMethods.toList.Pairwise (· < ·) ∧ ∀ m,
      [s.isReachable m = true, m ∈ s.reachableMethods.toList, s.callGraph.reaches m = true,
        s.contextsOf m ≠ [], s.callGraph.methodGraph.nodes.count m = 1].TFAE) ∧
    (∀ site, (s.callees site).toList.Pairwise (· < ·) ∧
      ∀ m, m ∈ (s.callees site).toList ↔ m ∈ s.callGraph.callees site) ∧
    (∀ e ∈ s.callEdges, ∀ e' ∈ s.callEdges, e'.site.site = e.site.site →
      e'.callee.method = e.callee.method → e'.kind = e.kind) ∧
    (s.callGraph.ends.Nodup ∧ ∀ e, e ∈ s.callGraph.edges ↔ ∃ e' ∈ s.callEdges,
      e'.kind = e.kind ∧ e'.site.site = e.site ∧ e'.callee.method = e.callee) ∧
    List.Forall₂ s.callGraph.methodGraph.Draws s.callGraph.edges s.callGraph.methodGraph.edges := by
  obtain ⟨hp, -, entries, -, hsolve⟩ := solve_of_analyze h
  have hset : (p.setup (custom.getD c.selector)).WellFormed := Program.wellFormed_setup hp
  obtain ⟨hsound, -, hcomplete⟩ := Solver.outcome_of_solve hset hsolve
  have hw := hsound.wellFormed
  -- both ends of an edge are reachable: the callee by a rule, the caller as facts belong to methods
  have hreach : ∀ {x : MethodInstance}, s.state.Found (.reachable x) →
      x.method ∈ s.callGraph.reachable := by
    intro x hx
    have hm : x.method ∈ s.reachableMethods := (Solution.mem_reachableMethods_iff hw).2 ⟨_, hx⟩
    rwa [Solution.mem_callGraph_reachable_iff, ← Solution.mem_reachableMethods_iff_exists]
  have hends : ∀ e ∈ s.callGraph.edges,
      e.site.method ∈ s.callGraph.reachable ∧ e.callee ∈ s.callGraph.reachable := by
    intro e he
    obtain ⟨x, y, hcall⟩ := (Solution.mem_callGraph_edges_iff hsound).1 he
    have hcaller := reachable_of_call hp (hsound.knows _ (Or.inl hcall))
    exact ⟨hreach (hcomplete.closed.of_derivable hcaller), hreach (hcomplete.closed.rule .callee hcall)⟩
  refine ⟨⟨s.reachableMethods.sorted, Solution.reachable_tfae hw⟩, ?_, ?_, ?_,
    CallGraph.draws_methodGraph hends⟩
  · intro site
    exact ⟨(s.callees site).sorted, fun m => Solution.mem_callees_iff_mem_callGraph hsound⟩
  · intro e he e' he' hsite _
    exact Solution.kind_eq_of_ends hsound he he' hsite
  · exact ⟨s.nodup_callGraph_ends, fun e => Solution.mem_callGraph_edges_iff_exists hsound⟩

/-- The second method of the program calls itself, so its call has an edge under each of its three contexts,
and all of them become the edge from its node to itself. -/
theorem call_views_agree_recursive : ∃ s,
    analyze .standard (some (.callSite 2 1)) Sample.recursive.indexed = .ok s ∧
      s.callEdges.length = 4 ∧ (s.contextsOf 1).length = 3 ∧
      s.callGraph.edges = [⟨.virtual, ⟨0, 1⟩, 1⟩, ⟨.virtual, ⟨1, 1⟩, 1⟩] ∧
      s.callGraph.methodGraph = ⟨[0, 1], [(0, 1, .virtual), (1, 1, .virtual)]⟩ ∧
      s.isReachable 1 = true ∧ (∀ m, m ∈ (s.callees ⟨1, 1⟩).toList ↔ m ∈ s.callGraph.callees ⟨1, 1⟩) ∧
      List.Forall₂ s.callGraph.methodGraph.Draws s.callGraph.edges s.callGraph.methodGraph.edges := by
  obtain ⟨s, hs, htest⟩ := exists_ok_of_any (by decide +kernel :
    (analyze .standard (some (.callSite 2 1)) Sample.recursive.indexed).toOption.any (fun s =>
      s.callEdges.length = 4 ∧ (s.contextsOf 1).length = 3 ∧
        s.callGraph.edges = [⟨.virtual, ⟨0, 1⟩, 1⟩, ⟨.virtual, ⟨1, 1⟩, 1⟩] ∧
        s.callGraph.methodGraph = ⟨[0, 1], [(0, 1, .virtual), (1, 1, .virtual)]⟩) = true)
  obtain ⟨hedges, hcontexts, hcalls, hgraph⟩ := of_decide_eq_true htest
  obtain ⟨⟨-, hreach⟩, hcallees, -, -, hdraws⟩ := call_views_agree hs
  have hone : s.contextsOf 1 ≠ [] := by
    rw [← List.length_pos_iff, hcontexts]
    decide
  exact ⟨s, hs, hedges, hcontexts, hcalls, hgraph, ((hreach 1).out 3 0).1 hone,
    (hcallees ⟨1, 1⟩).2, hdraws⟩

end PointsTo
