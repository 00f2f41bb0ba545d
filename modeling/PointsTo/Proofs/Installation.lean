import PointsTo.Proofs.Invariants

/-!
# Call edges are installed whole

Where a call edge is recorded, its arguments and results are connected and its callee waits, all in one
rule that fails before it changes anything (`connectCall_failed`). So whatever fails elsewhere, and
however often, no edge is ever left half installed: `State.Whole` holds after every operation that leaves
it to the rules which edges there are (`installed_whole`).
-/

namespace PointsTo

/-- Every call edge is one of a call statement, with its values connected, and its callee is reachable or
waits to be. -/
structure State.Whole (setup : Setup) (s : State) : Prop where
  installed : ∀ e ∈ s.callGraph.edges, s.Installed setup e
  callees : ∀ e ∈ s.callGraph.edges, e.callee ∈ s.callGraph.reachable ∨ e.callee ∈ s.pending.toList

namespace State.Whole

open Solver

variable {setup : Setup} {s t u : State} {m : CSMethod} {j : CSMethodId}

theorem initial (order : WorklistOrder) : (State.initial order).Whole setup :=
  ⟨fun _ he => absurd he List.not_mem_nil, fun _ he => absurd he List.not_mem_nil⟩

/-- Only edges can be half installed. -/
theorem of_grows (hs : s.Whole setup) (ht : s.Grows t) (hc : t.callGraph = s.callGraph)
    (hp : t.pending = s.pending) : t.Whole setup := by
  refine ⟨fun e he => ?_, fun e he => ?_⟩
  · rw [hc] at he
    exact (hs.installed e he).mono ht
  · rw [hc] at he
    rw [hc, hp]
    exact hs.callees e he

theorem of_worklist {w : Worklist} (h : { s with worklist := w }.Whole setup) : s.Whole setup :=
  h.of_grows { State.Grows.refl s with } rfl rfl

theorem joins {P : Pointer → Prop} (hs : s.Whole setup) (ht : Joins P s t) : t.Whole setup :=
  hs.of_grows ht.grows ht.callGraph ht.pending

theorem change (hs : s.Whole setup) (h : Change setup m s t) : t.Whole setup := by
  cases h with
  | join ht => exact hs.joins ht
  | again _ _ ht => exact hs.joins ht
  | @call kind i j x n d decl new links callGraph pending _ whole =>
    -- the new edge stands at the end of the list, and its callee at the end of the queue
    rw [addCall_eq new] at callGraph pending
    refine ⟨fun e he => ?_, fun e he => ?_⟩
    · rw [callGraph, CallGraph.edges_withEdge, List.mem_append, List.mem_singleton] at he
      rcases he with he | rfl
      · exact (hs.installed e he).mono links.grows
      · exact ⟨x, n, d, decl, whole⟩
    · rw [callGraph, CallGraph.edges_withEdge, List.mem_append, List.mem_singleton] at he
      rw [callGraph, pending, Deque.toList_push]
      rcases he with he | rfl
      · exact (hs.callees e he).imp id fun hj => List.mem_append_left _ hj
      · exact Or.inr (List.mem_append_right _ (List.mem_singleton.2 rfl))

theorem changes (hs : s.Whole setup) (h : Changes setup m s t) : t.Whole setup := by
  induction h with
  | refl => exact hs
  | tail _ hlast ih => exact ih.change hlast

theorem reach (hs : s.Whole setup) (j : CSMethodId) : (Solver.reach s j).Whole setup :=
  ⟨fun e he => (hs.installed e he).mono grows_reach,
    fun e he => (hs.callees e he).imp (List.mem_append_left _) id⟩

/-- A callee that is reachable need not wait. -/
theorem take {pending : Deque CSMethodId} (hs : s.Whole setup)
    (hnext : s.pending.popFront = some (j, pending)) (hj : j ∈ s.callGraph.reachable) :
    { s with pending }.Whole setup := by
  refine ⟨fun e he => (hs.installed e he).mono { State.Grows.refl s with }, fun e he => ?_⟩
  rcases hs.callees e he with hreach | hwaits
  · exact Or.inl hreach
  · rw [Deque.toList_of_popFront hnext] at hwaits
    rcases List.mem_cons.1 hwaits with heq | hwaits
    · exact Or.inl (heq ▸ hj)
    · exact Or.inr hwaits

theorem reaches (hs : s.Whole setup) (h : Reaches setup j s t) : t.Whole setup := by
  cases h with
  | again => exact hs
  | unknown => exact hs.reach j
  | wired _ _ body => exact (hs.reach j).changes body

theorem meets {i : PointerId} (hs : s.Whole setup) (h : Meets setup i s t) : t.Whole setup := by
  cases h with
  | nothing => exact hs
  | objects _ _ uses => exact hs.changes uses

theorem proceeds (hs : s.Whole setup) (h : Proceeds setup s t) : t.Whole setup := by
  cases h with
  | idle => exact hs
  | handled _ brings meets =>
    exact (hs.of_grows brings.grows brings.callGraph brings.pending).meets meets
  | @wired j pending _ next body =>
    -- it makes no difference whether the method leaves the queue before it is listed or after
    have htaken : (Solver.reach { s with pending } j).Whole setup :=
      (hs.reach j).take next (List.mem_append_right _ (List.mem_singleton.2 rfl))
    cases body with
    | again old => exact hs.take next old
    | unknown => exact htaken
    | wired _ _ body => exact htaken.changes body

theorem invariant (setup : Setup) : Invariant setup (·.Whole setup) where
  interns hs ht := hs.joins ht
  enters {s t j} hs ht := by
    have henter : (enter s j).Whole setup :=
      ⟨fun e he => (hs.installed e (callGraph_enter.2 ▸ he)).mono grows_enter, fun e he => by
        rw [callGraph_enter.2] at he
        rw [callGraph_enter.1]
        exact hs.callees e he⟩
    exact henter.reaches ht
  proceeds hs ht := hs.proceeds ht

end State.Whole

namespace Solver

variable {setup : Setup} {s t : State}

/-- The operation leaves it to the rules which call edges are installed. -/
def Operation.Ruled : Operation → Prop
  | .call .. => False
  | .ask _ | .reach _ | .flow .. | .receive .. => True

/-- Adding a flow edge concerns no call edge. -/
theorem whole_addFlow (hs : s.Whole setup) (p q : PointerId) : (s.addFlow p q).Whole setup := by
  have hgrows : s.Grows (s.addFlow p q) := respects_addFlow runFrame_grows.linkFrame p q s
  have hkept : (s.addFlow p q).callGraph = s.callGraph ∧ (s.addFlow p q).pending = s.pending := by
    unfold State.addFlow
    split
    · exact ⟨rfl, rfl⟩
    · split <;> exact ⟨rfl, rfl⟩
  exact hs.of_grows hgrows hkept.1 hkept.2

theorem whole_operation (hset : setup.WellFormed) (hs : s.Whole setup) {op : Operation}
    (hop : op.Ruled) : (after (op.perform setup) s).Whole setup := by
  have hrest {R : State → State → Prop} {x : SolveM Unit} (hR : ∀ t, R s t → t.Whole setup)
      (hx : Moves R x s) : (after x s).Whole setup :=
    hx.after (fun _ t ht => hR t ht) fun _ t ⟨w, hw⟩ => (hR _ hw).of_worklist
  cases op with
  | ask r => exact hrest (fun _ ht => ht) ((State.Whole.invariant setup).perform hset hs r)
  | reach m => exact hrest (fun _ ht => hs.reaches ht) (moves_addReachable hset m)
  | flow source target => exact whole_addFlow hs source target
  | receive c v o =>
    obtain ⟨n, hn⟩ := exists_methodOfVar setup v
    exact hrest (fun _ ht => hs.changes ht) (moves_callsOn (c := c) hset hn o)
  | call => exact hop.elim

theorem whole_operate (hset : setup.WellFormed) (order : WorklistOrder) (ops : List Operation)
    (hops : ∀ op ∈ ops, op.Ruled) : (operate setup order ops).Whole setup := by
  induction ops using List.reverseRecOn with
  | nil => exact State.Whole.initial order
  | append_singleton ops op ih =>
    rw [operate_concat]
    have hbefore := ih fun op hop => hops op (List.mem_append_left _ hop)
    exact whole_operation hset hbefore (hops op (List.mem_append_right _ (List.mem_singleton.2 rfl)))

/-- A call edge that cannot be installed leaves nothing behind: what can fail comes first. -/
theorem connectCall_failed {kind : EdgeKind} {i : CSSiteId} {j : CSMethodId} {d : Call}
    {e : AnalysisError} (h : connectCall setup kind i j d s = .error e t) : t = s := by
  have hends : Ends (connectCall setup kind i j d) s (fun _ _ => True) fun _ u => u = s := by
    unfold connectCall
    refine Ends.bind_of_eq get_eq ?_
    split
    · trivial
    refine Ends.lookup rfl (fun x _ => ?_) rfl
    refine Ends.lookup rfl (fun m _ => ?_) rfl
    refine Ends.lookup rfl (fun decl _ => ?_) rfl
    split
    · rfl
    refine Ends.bind_of_eq modify_eq ?_
    have hcallee : ∀ v ∈ Program.mentionedVars decl, True := fun _ _ => trivial
    obtain ⟨u, hu, -⟩ := exists_passValues (P := fun _ => True) (x := x) (n := m) (d := d)
      (fun _ _ => trivial) hcallee (s.addCall kind i j)
    exact Ends.of_eq hu trivial
  exact hends.failed_of_eq h

/-- Whatever seeds, steps and runs are asked for, whatever methods are made reachable besides, and
whatever of it fails: every call edge is one of a call statement that passes as many arguments as the
callee has parameters, each argument flows to its parameter and each return variable to the result, and
the callee is reachable or waits. Where an edge cannot be installed, the state is what it was. -/
theorem installed_whole {p : Program} (hp : p.validate = .ok ()) (selector : Selector) :
    (∀ (order : WorklistOrder) (ops : List Operation), (∀ op ∈ ops, op.Ruled) →
      (operate (p.setup selector) order ops).Whole (p.setup selector)) ∧
    ∀ (kind : EdgeKind) (i : CSSiteId) (j : CSMethodId) (d : Call) (s : State) (e : AnalysisError)
      (t : State), connectCall (p.setup selector) kind i j d s = .error e t → t = s :=
  ⟨fun order ops hops => whole_operate (Program.wellFormed_setup hp) order ops hops,
    fun _ _ _ _ _ _ _ h => connectCall_failed h⟩

/-- In the small program the callee is made reachable before anything calls it, and an id is asked for
that stands for no method. -/
def Sample.requests : List Operation :=
  [.ask (.seed [0, 1]), .reach 7, .ask (.step 9), .reach 1, .ask (.run 20)]

/-- The edges that are there are whole, and a call that passes too few arguments leaves the state alone. -/
theorem installed_whole_sample : Sample.program.validate = .ok () ∧
    (∀ op ∈ Sample.requests, op.Ruled) ∧
    (operate (Sample.program.setup .insensitive) .lifo Sample.requests).callGraph.edges ≠ [] ∧
    (operate (Sample.program.setup .insensitive) .lifo Sample.requests).Whole
      (Sample.program.setup .insensitive) ∧
    ∃ e, connectCall (Sample.program.setup .insensitive) .virtual 0 0 Sample.wrongCall
        (operate (Sample.program.setup .insensitive) .lifo Sample.requests) =
      .error e (operate (Sample.program.setup .insensitive) .lifo Sample.requests) := by
  have hruled : ∀ op ∈ Sample.requests, op.Ruled := by
    simp only [Sample.requests, List.forall_mem_cons, Operation.Ruled]
    exact ⟨trivial, trivial, trivial, trivial, trivial, fun _ h => absurd h List.not_mem_nil⟩
  obtain ⟨hall, hfailed⟩ := installed_whole Sample.validate_program .insensitive
  obtain ⟨e, t, ht, -⟩ := Ends.exists_error (by decide +kernel :
    Ends (connectCall (Sample.program.setup .insensitive) .virtual 0 0 Sample.wrongCall)
      (operate (Sample.program.setup .insensitive) .lifo Sample.requests)
      (fun _ _ => False) fun _ _ => True)
  have hsame := hfailed _ _ _ _ _ _ _ ht
  rw [hsame] at ht
  exact ⟨Sample.validate_program, hruled, by decide +kernel, hall .lifo _ hruled, e, ht⟩

end Solver

end PointsTo
