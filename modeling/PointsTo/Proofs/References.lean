import PointsTo.Proofs.Failures
import PointsTo.Proofs.Linking
import PointsTo.Proofs.Reports
import PointsTo.Proofs.Simulation

/-!
# No reference of a run leads nowhere

The tables of a run refer to each other and to those of the program. For every selector and at every moment
of a run, also after errors, whatever they mention is there (`State.Linked`), as what a run finds is about
what the program has (`closed_linked`). So no look-up finds nothing when a solution is read, with or without
contexts and by name (`Solution.Linked`).

What is left are calls that cannot be made. An analysis by a shipped policy fails only for a call that it
derives (`Setup.CallFails`): a static call that names no method, a call with another number of arguments
than its callee has parameters, or an instance call of a method without a receiver.
-/

namespace PointsTo

/-! ## The tables of a run -/

/-- Whatever id a table of the state mentions was handed out, and what it stands for is made of what the
program and the heap have. -/
structure State.Linked (setup : Setup) (s : State) : Prop extends s.WellFormed where
  object : ∀ {i o}, s.arena.object? i = some o → ∃ a, setup.heap.object? o.object = some a
  method : ∀ {i m}, s.arena.method? i = some m → ∃ d, setup.program.method? m.method = some d
  site : ∀ {i x}, s.arena.site? i = some x → ∃ d, setup.program.stmt? x.site = some (.call d)
  location : ∀ {i l}, s.arena.location? i = some l → l.place.In setup.program.toProgram setup.heap

/-- The objects, methods and calls that the fact names are there. -/
def Fact.Named (setup : Setup) : Fact → Prop
  | .object o => ∃ a, setup.heap.object? o.object = some a
  | .method m | .entry m | .reachable m => ∃ d, setup.program.method? m.method = some d
  | .site x => ∃ d, setup.program.stmt? x.site = some (.call d)
  | .call _ x m => (∃ d, setup.program.stmt? x.site = some (.call d)) ∧
      ∃ d, setup.program.method? m.method = some d
  | _ => True

/-- The fact is about what is there. -/
def Fact.Linked (setup : Setup) (f : Fact) : Prop :=
  f.In setup.program.toProgram setup.heap ∧ f.Named setup

section

variable {setup : Setup} (hset : setup.WellFormed) {entries : List MethodId}

include hset

/-- Facts about what is there are closed under the rules, for every selector. -/
theorem closed_linked (hentries : ∀ m ∈ entries, ∃ d, setup.program.method? m = some d) :
    Closed setup entries (Fact.Linked setup) where
  empty := ⟨trivial, trivial⟩
  entry m hm := ⟨trivial, hentries m hm⟩
  flow hf ho := ⟨(closed_in hset entries).flow hf.1 ho.1, trivial⟩
  rule := by
    intro g f hr hg
    refine ⟨(closed_in hset entries).rule hr hg.1, ?_⟩
    cases hr with
    | held => exact hg.1.2
    | occurs | entry => exact hg.2
    | effect hs h =>
      cases h with
      | call hd hc => exact ⟨⟨_, hs⟩, Program.method_of_resolveStatic hset.valid hc⟩
      | _ => trivial
    | access hs h => cases h <;> trivial
    | invocation h =>
      cases h with
      | call hr =>
        obtain ⟨hs, -, -, a, m, -, hm, rfl⟩ := hr
        exact ⟨⟨_, hs⟩, Program.method_of_resolve? hset.valid hm⟩
      | receiver => trivial
    | caller => exact hg.2.1
    | callee => exact hg.2.2
    | _ => trivial

omit hset in
/-- A state that knows only what is there mentions only what is there. -/
theorem State.Sound.linked {s : State} (h : s.Sound setup (Fact.Linked setup)) : s.Linked setup where
  toWellFormed := h.wellFormed
  object hi := h.heap _ ⟨_, hi⟩
  method hi := (h.knows (.method _) (Or.inl ⟨_, hi⟩)).2
  site hi := (h.knows (.site _) (Or.inl ⟨_, hi⟩)).2
  location hi := (h.knows (.location _) (Or.inl ⟨_, hi⟩)).1

open Solver

variable (hentries : ∀ m ∈ entries, ∃ d, setup.program.method? m = some d) {order : WorklistOrder}

include hentries

theorem linked_of_visits {s : State} (hs : Visits setup entries order s) : s.Linked setup :=
  (hs.sound hset (closed_linked hset hentries)).linked

/-- Whatever fuel a run is given, and whether it ends well or not, its tables are linked. So they are
between any two things it does, as a run that lacks fuel ends there. -/
theorem linked_after_solve (n : Nat) :
    (after (solve setup n entries) (.initial order)).Linked setup := by
  by_cases hne : entries = []
  · subst hne
    exact linked_of_visits hset hentries .start
  · have hends : Ends (solve setup n entries) (.initial order) _ _ :=
      ends_solve hset (closed_linked hset hentries) n hne
    exact (hends.after (fun _ _ h => h.1) fun _ _ h => h.1).linked

end

/-! ## Calls that cannot be made -/

/-- A call that the rules derive cannot be made, and the error says why. -/
inductive Setup.CallFails (setup : Setup) (entries : List MethodId) : AnalysisError → Prop where
  /-- The class that a static call of a reachable method names does not declare the method. -/
  | dangling {m : MethodInstance} {i : Nat} {d : Call} (hm : Derivable setup entries (.reachable m))
      (hs : setup.program.stmt? ⟨m.method, i⟩ = some (.call d)) (hd : d.isStatic = true)
      (hnone : setup.program.declared? d.target.owner d.target.subsignature = none) :
      CallFails setup entries (.program (.danglingMethod
        (.atCall (setup.program.className d.target.owner) d.target.subsignature)))
  /-- A call passes another number of arguments than its callee has parameters. -/
  | arity {kind : EdgeKind} {x : SiteInstance} {callee : MethodInstance} {d : Call}
      {method : MethodDecl} (hc : Derivable setup entries (.call kind x callee))
      (hs : setup.program.stmt? x.site = some (.call d))
      (hm : setup.program.method? callee.method = some method)
      (ha : d.args.length ≠ method.params.length) :
      CallFails setup entries
        (.arityMismatch s!"{x.site.text} in {setup.program.signature x.site.method}"
          (setup.program.signatureOf method) d.args.length method.params.length)
  /-- A call runs a method without a variable for the receiver that arrives. -/
  | missingThis {c : Context} {v : VarId} {o : HeapObject} {site : Site} {d : Call}
      {callee : MethodInstance} {method : MethodDecl}
      (hv : Derivable setup entries (.pointsTo (.var c v) o))
      (hc : Derivable setup entries (.call (.ofMode d.mode) ⟨c, site⟩ callee))
      (hr : setup.Runs c site d v o callee)
      (hm : setup.program.method? callee.method = some method) (ht : method.this = none) :
      CallFails setup entries (.program (.missingThis (setup.program.signatureOf method)))

section

variable {setup : Setup} (hset : setup.WellFormed) {entries : List MethodId}
  (hentries : ∀ m ∈ entries, ∃ d, setup.program.method? m = some d) {e : AnalysisError}

include hset hentries

/-- Of the faults that the rules know those are left at which a call fails: methods and allocations are
always found. -/
theorem callFails_of_fault {f : Fact} (hf : Derivable setup entries f) (he : Fault setup f e) :
    setup.CallFails entries e := by
  cases he with
  | unknownMethod hm =>
    obtain ⟨-, d, hd⟩ := (closed_linked hset hentries).of_derivable hf
    rw [hm] at hd
    cases hd
  | misstep hs h =>
    cases h with
    | unallocated ha =>
      obtain ⟨a, hsome, -⟩ := Heap.objectAt?_ofProgram hset.valid hs
      rw [hset.heap, hsome] at ha
      cases ha
    | dangling hd hc =>
      obtain ⟨hnone, rfl⟩ := Program.of_resolveStatic_eq_error hc
      exact .dangling hf hs hd hnone
  | refusal h =>
    obtain ⟨hr, hm, ht⟩ := h
    exact .missingThis hf (.rule (.invocation (.call hr)) hf) hr hm ht
  | arity hs hm ha => exact .arity hf hs hm ha

open Solver

/-- A run that stops lacked fuel or has met a call that fails. -/
theorem callFails_of_stops {s : State} (h : Stops setup (Derivable setup entries) e s) :
    e = .outOfFuel ∨ setup.CallFails entries e := by
  refine h.2.imp id ?_
  rintro ⟨f, hf, he⟩
  exact callFails_of_fault hset hentries hf he

end

/-! ## What is read from a solution -/

/-- No look-up finds nothing when the solution is read, with or without contexts and by name: all ids are
replaced by what they stand for, and what is named is there. -/
structure Solution.Linked (s : Solution) (p : Program) : Prop where
  entries : s.entries.length = s.state.callGraph.entries.length
  reachable : s.reachable.length = s.state.callGraph.reachable.length
  callEdges : s.callEdges.length = s.state.callGraph.edges.length
  flowEdges : s.flowEdges.length = s.state.flow.edges.length
  contextsOf : ∀ m, (s.contextsOf m).length = (s.reachable.filter (·.method = m)).length
  objectsIn : ∀ i, (s.arena.objectsIn (s.state.pointsTo i)).length = (s.state.pointsTo i).toList.length
  place : ∀ {i q}, s.arena.pointers.get? i = some q →
    ∃ place, s.arena.place? q = some place ∧ place.In p s.heap
  reachableMethods : ∀ m ∈ s.reachableMethods, ∃ d, p.method? m = some d
  callGraph : s.callGraph.Linked p
  ends : ∀ e ∈ s.callGraph.methodGraph.edges, e.1 < s.callGraph.methodGraph.nodes.length ∧
    e.2.1 < s.callGraph.methodGraph.nodes.length
  places : ∀ place ∈ s.places, place.In p s.heap
  described : ∀ place, (s.described p place).length = (s.pointsTo place).toList.length
  heapName : ∀ place ∈ s.heapPlaces, ∃ name, place.heapName? p s.heap = some name

/-- The ends of an edge are positions in the list of nodes. -/
theorem CallGraph.lt_of_mem_methodGraph_edges {g : CallGraph Site MethodId}
    {e : Nat × Nat × EdgeKind} (he : e ∈ g.methodGraph.edges) :
    e.1 < g.methodGraph.nodes.length ∧ e.2.1 < g.methodGraph.nodes.length := by
  obtain ⟨e', -, h⟩ := List.mem_filterMap.1 he
  obtain ⟨i, hi, h⟩ := Option.bind_eq_some_iff.1 h
  obtain ⟨j, hj, h⟩ := Option.bind_eq_some_iff.1 h
  cases h
  obtain ⟨hi, -⟩ := List.idxOf?_eq_some_iff.1 hi
  obtain ⟨hj, -⟩ := List.idxOf?_eq_some_iff.1 hj
  exact ⟨hi, hj⟩

namespace Solution

variable {setup : Setup} {s : Solution} (hs : s.state.Linked setup)

include hs

theorem exists_place {i : PointerId} {q : Pointer} (hq : s.arena.pointers.get? i = some q) :
    ∃ place, s.arena.place? q = some place ∧ place.In setup.program.toProgram setup.heap := by
  obtain ⟨l, hl⟩ := hs.arena.location i (Interner.lt_size_of_get? hq)
  obtain ⟨q', hq', hlocate⟩ := Arena.location?_eq_some_iff.1 hl
  rw [arena_eq, hq'] at hq
  cases hq
  exact ⟨l.place, Arena.place?_of_locate? hlocate, hs.location hl⟩

/-- A place that points to something is there, and so is what it points to. -/
theorem in_of_mem_pointsTo {place : Place} {o : ObjId} (ho : o ∈ s.pointsTo place) :
    place.In setup.program.toProgram setup.heap ∧ ∃ a, setup.heap.object? o = some a := by
  obtain ⟨l, c, rfl, i, j, -, hl, hobject⟩ := (mem_pointsTo_iff hs.toWellFormed).1 ho
  exact ⟨hs.location hl, hs.object hobject⟩

theorem method_of_get? {i : CSMethodId} {m : CSMethod} (hm : s.arena.methods.get? i = some m) :
    (∃ c, s.arena.contexts.get? m.context = some c) ∧
      ∃ d, setup.program.method? m.method = some d := by
  obtain ⟨n, hn⟩ := hs.arena.method i (Interner.lt_size_of_get? hm)
  obtain ⟨k, hk, hc⟩ := Arena.method?_eq_some_iff.1 hn
  rw [arena_eq, hk] at hm
  cases hm
  exact ⟨⟨_, hc⟩, hs.method hn⟩

theorem site_of_get? {i : CSSiteId} {x : CSSite} (hx : s.arena.sites.get? i = some x) :
    ∃ d, setup.program.stmt? x.site = some (.call d) := by
  obtain ⟨y, hy⟩ := hs.arena.site i (Interner.lt_size_of_get? hx)
  obtain ⟨k, hk, -⟩ := Arena.site?_eq_some_iff.1 hy
  rw [arena_eq, hk] at hx
  cases hx
  exact hs.site hy

theorem linked_callGraph : s.callGraph.Linked setup.program.toProgram := by
  have hmethod : ∀ {ids : List CSMethodId}, ∀ m ∈ (ids.filterMap s.arena.methods.get?).map (·.method),
      ∃ d, setup.program.method? m = some d := by
    intro ids m hm
    obtain ⟨r, hr, rfl⟩ := List.mem_map.1 hm
    obtain ⟨i, -, hr⟩ := List.mem_filterMap.1 hr
    exact (method_of_get? hs hr).2
  have hedge : ∀ e ∈ s.callEdges.map fun e => (⟨e.kind, e.site.site, e.callee.method⟩ : CallEdge _ _),
      (∃ d, setup.program.stmt? e.site = some (.call d)) ∧
        ∃ d, setup.program.method? e.callee = some d := by
    intro e he
    obtain ⟨r, hr, rfl⟩ := List.mem_map.1 he
    obtain ⟨e', -, hr⟩ := List.mem_filterMap.1 hr
    obtain ⟨x, hx, hr⟩ := Option.bind_eq_some_iff.1 hr
    obtain ⟨n, hn, hr⟩ := Option.bind_eq_some_iff.1 hr
    cases hr
    exact ⟨site_of_get? hs hx, (method_of_get? hs hn).2⟩
  refine CallGraph.Linked.foldl (.foldl (.foldl .empty ?_) ?_) ?_
  · exact fun _ hg m hm => hg.addEntry (hmethod m hm)
  · exact fun _ hg m hm => hg.addReachable (hmethod m hm)
  · exact fun _ hg e he => hg.addEdge (hedge e he)

theorem linked (hheap : s.heap = setup.heap) : s.Linked setup.program.toProgram where
  entries := List.filterMap_length_eq_length.2 fun i hi =>
    Option.isSome_iff_exists.2 (Interner.lt_size_iff.1 (hs.entries i hi))
  reachable := List.filterMap_length_eq_length.2 fun i hi =>
    Option.isSome_iff_exists.2 (Interner.lt_size_iff.1 (hs.reachable i hi))
  callEdges := by
    refine List.filterMap_length_eq_length.2 fun e he => ?_
    obtain ⟨hx, hm⟩ := hs.edges e he
    obtain ⟨x, hx⟩ := Interner.lt_size_iff.1 hx
    obtain ⟨m, hm⟩ := Interner.lt_size_iff.1 hm
    simp [arena_eq, hx, hm]
  flowEdges := by
    refine List.filterMap_length_eq_length.2 fun ⟨i, j⟩ he => ?_
    obtain ⟨hi, hj⟩ := hs.flow i j (FlowGraph.mem_edges_iff.1 he)
    obtain ⟨q, hq⟩ := Interner.lt_size_iff.1 hi
    obtain ⟨r, hr⟩ := Interner.lt_size_iff.1 hj
    simp [arena_eq, hq, hr]
  contextsOf m := by
    refine List.filterMap_length_eq_length.2 fun n hn => ?_
    obtain ⟨i, -, hi⟩ := List.mem_filterMap.1 (List.mem_filter.1 hn).1
    exact Option.isSome_iff_exists.2 (method_of_get? hs hi).1
  objectsIn i := List.filterMap_length_eq_length.2 fun j hj =>
    Option.isSome_iff_exists.2 (Interner.lt_size_iff.1 (hs.pointsTo i j (IdSet.mem_toList.1 hj)))
  place hq := hheap ▸ exists_place hs hq
  reachableMethods m hm := by
    obtain ⟨c, i, -, hm⟩ := (mem_reachableMethods_iff hs.toWellFormed).1 hm
    exact hs.method hm
  callGraph := linked_callGraph hs
  ends _ := CallGraph.lt_of_mem_methodGraph_edges
  places place hplace := by
    obtain ⟨o, ho⟩ := (mem_places_iff hs.toWellFormed).1 hplace
    exact hheap ▸ (in_of_mem_pointsTo hs ho).1
  described place := by
    refine List.filterMap_length_eq_length.2 fun o ho => ?_
    obtain ⟨a, ha⟩ := (in_of_mem_pointsTo hs (IdSet.mem_toList.1 ho)).2
    simp [hheap, ha]
  heapName place hplace := by
    obtain ⟨hmem, hv⟩ := mem_heapPlaces_iff.1 hplace
    obtain ⟨o, ho⟩ := (mem_places_iff hs.toWellFormed).1 hmem
    rw [hheap]
    exact (in_of_mem_pointsTo hs ho).1.exists_heapName? hv

end Solution

/-! ## All together -/

open Solver

/-- No look-up of an analysis finds nothing, for every checked program with a new index, every shipped
policy, both orders and all entries that exist. The tables of the program, the index and the heap are
linked. So are those of the run, after every step and at every moment in between, also when it fails, and
so is what is read from them. A run with fuel enough fails only for a derivable call that cannot be made,
and so do single steps. The call graph of the hierarchy is linked as well, and only a static call that
names no method keeps it from being made. -/
theorem linked_or_callFails {p : Program} (hp : p.validate = .ok ()) (policy : ContextPolicy)
    (k heapK : Nat) (order : WorklistOrder) (entries : List MethodId) (hne : entries ≠ [])
    (hentries : ∀ m ∈ entries, m < p.methods.size) :
    (p.setup (policy.selector k heapK)).Linked ∧
    (∀ s, Visits (p.setup (policy.selector k heapK)) entries order s ∨
        (∃ n, s = after (solve (p.setup (policy.selector k heapK)) n entries) (.initial order)) →
      s.Linked (p.setup (policy.selector k heapK)) ∧
      ∀ selectorName, (Solution.mk selectorName (.ofProgram p) s).Linked p) ∧
    (∀ n e t, p.stepBound k heapK ≤ n →
      solve (p.setup (policy.selector k heapK)) n entries (.initial order) = .error e t →
      (p.setup (policy.selector k heapK)).CallFails entries e) ∧
    (∀ s n e t, Visits (p.setup (policy.selector k heapK)) entries order s →
      step (p.setup (policy.selector k heapK)) n s = .error e t →
      e = .outOfFuel ∨ (p.setup (policy.selector k heapK)).CallFails entries e) ∧
    (∀ g, p.indexed.graphFrom entries = .ok g → g.Linked p) ∧
    ∀ e, p.indexed.graphFrom entries = .error e → ∃ e', e = .program e' ∧ p.Dangles e' := by
  have hset : (p.setup (policy.selector k heapK)).WellFormed := Program.wellFormed_setup hp
  have hmethods : ∀ m ∈ entries, ∃ d, p.method? m = some d := fun m hm =>
    ⟨_, Array.getElem?_eq_getElem (hentries m hm)⟩
  refine ⟨Program.linked_setup hp _, ?_, ?_, ?_, IndexedProgram.linked_graphFrom hp hne hmethods⟩
  · intro s hs
    have hlinked : s.Linked (p.setup (policy.selector k heapK)) := by
      rcases hs with hs | ⟨n, rfl⟩
      · exact linked_of_visits hset hmethods hs
      · exact linked_after_solve hset hmethods n
    refine ⟨hlinked, fun selectorName => ?_⟩
    exact Solution.linked (s := ⟨selectorName, .ofProgram p, s⟩) hlinked rfl
  · intro n e t hn h
    have hstops := (ends_solve hset closed_derivable n hne).failed_of_eq h
    exact (callFails_of_stops hset hmethods hstops).resolve_left
      (ne_outOfFuel_of_stepBound hp hentries hne hn h)
  · intro s n e t hs h
    have hsound := hs.sound hset closed_derivable
    exact callFails_of_stops hset hmethods ((ends_step hset closed_derivable n hsound).failed_of_eq h)

/-- A run that meets a static call without a target fails for it, and leaves linked tables behind. -/
theorem linked_or_callFails_dangling :
    Sample.dangling.validate = .ok () ∧ [0] ≠ ([] : List MethodId) ∧
    (∀ m ∈ [0], m < Sample.dangling.methods.size) ∧ ∃ e t,
    solve (Sample.dangling.setup (ContextPolicy.callSite.selector 1 1))
      (Sample.dangling.stepBound 1 1) [0] (.initial .fifo) = .error e t ∧
    (Sample.dangling.setup (ContextPolicy.callSite.selector 1 1)).CallFails [0] e ∧
    t.Linked (Sample.dangling.setup (ContextPolicy.callSite.selector 1 1)) := by
  have hentries : ∀ m ∈ [0], m < Sample.dangling.methods.size := by decide
  obtain ⟨-, hstates, hsolve, -⟩ := linked_or_callFails Sample.validate_dangling .callSite 1 1 .fifo [0]
    (by decide) hentries
  have hfails : Ends (solve (Sample.dangling.setup (ContextPolicy.callSite.selector 1 1))
      (Sample.dangling.stepBound 1 1) [0]) (.initial .fifo) (fun _ _ => False) fun _ _ => True := by
    decide +kernel
  cases hrun : solve (Sample.dangling.setup (ContextPolicy.callSite.selector 1 1))
      (Sample.dangling.stepBound 1 1) [0] (.initial .fifo) with
  | ok _ t => exact (hfails.ok_of_eq hrun).elim
  | error e t =>
    have hlinked := (hstates _ (Or.inr ⟨Sample.dangling.stepBound 1 1, rfl⟩)).1
    rw [after, hrun] at hlinked
    exact ⟨Sample.validate_dangling, by decide, hentries, e, t, rfl,
      hsolve _ e t (Nat.le_refl _) hrun, hlinked⟩

end PointsTo
