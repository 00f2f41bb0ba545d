import PointsTo.Proofs.Simulation

/-!
# More contexts, more precise answers

A solution `Refines` another if, read without contexts, whatever it says the other says as well. When one
selector's contexts translate to those of another on the same program (`simulated_of_contexts`), its
solutions refine those of the other.

Erasing contexts is such a translation, from any selector to one context for everything
(`refines_insensitive`). So is truncating them, from deeper to shallower depths of a policy
(`deeper_refines`). There an object is truncated to the heap depth, but a method in general to less than
the method depth: a receiver's context is put together from its heap context and one element, so of the
contexts of a policy that looks at receivers no more than that can be told apart
(`ContextPolicy.distinguished`).
-/

namespace PointsTo

/-- The solution that a run ending in the state `s` computes. -/
def Setup.solution (setup : Setup) (s : State) : Solution := ⟨setup.selector.name, setup.heap, s⟩

/-- Read without contexts, whatever `s` says `t` says as well. -/
structure Solution.Refines (s t : Solution) : Prop where
  vars : ∀ v, ∀ o ∈ s.varPointsTo v, o ∈ t.varPointsTo v
  fields : ∀ base f, ∀ o ∈ s.fieldPointsTo base f, o ∈ t.fieldPointsTo base f
  statics : ∀ f, ∀ o ∈ s.staticPointsTo f, o ∈ t.staticPointsTo f
  arrays : ∀ array, ∀ o ∈ s.arrayPointsTo array, o ∈ t.arrayPointsTo array
  methods : ∀ m ∈ s.reachableMethods, m ∈ t.reachableMethods
  calls : ∀ e ∈ s.callGraph.edges, e ∈ t.callGraph.edges

namespace Translation

variable {r : Translation}

theorem place_location (hr : r.object = id) (l : Location) : (r.location l).place = l.place := by
  cases l with
  | var | staticField => rfl
  | instanceField o | arraySlots o => simp only [location, Location.place, heapObject, hr, id]

end Translation

section

variable {setup setup' : Setup} {F G : Fact → Prop} {s t : State} {r : Translation}

/-- If what a state has found translates to what another has found, and objects translate to
themselves, the one solution refines the other. -/
theorem refines_of_pulls (hs : s.Sound setup F) (ht : t.Sound setup' G) (hr : r.object = id)
    (h : ∀ f, s.Found f → r.Pulls t.Found f) : (setup.solution s).Refines (setup'.solution t) := by
  have hpoints : ∀ place, ∀ o ∈ (setup.solution s).pointsTo place,
      o ∈ (setup'.solution t).pointsTo place := by
    intro place o ho
    obtain ⟨l, c, rfl, hf⟩ := (Solution.mem_pointsTo_iff hs.wellFormed).1 ho
    have hf' : t.Found (.pointsTo (r.location l) ⟨r.heapContext c, r.object o⟩) := h _ hf
    rw [hr] at hf'
    exact (Solution.mem_pointsTo_iff ht.wellFormed).2 ⟨_, _, Translation.place_location hr l, hf'⟩
  refine ⟨fun v => hpoints _, fun b f => hpoints _, fun f => hpoints _, fun a => hpoints _, ?_, ?_⟩
  · intro m hm
    obtain ⟨c, hf⟩ := (Solution.mem_reachableMethods_iff hs.wellFormed).1 hm
    exact (Solution.mem_reachableMethods_iff ht.wellFormed).2 ⟨_, h _ hf⟩
  · intro e he
    obtain ⟨c, c', hf⟩ := (Solution.mem_callGraph_edges_iff hs).1 he
    exact (Solution.mem_callGraph_edges_iff ht).2 ⟨_, _, h _ hf⟩

/-- The solution of a simulated run refines that of the run it is simulated by. -/
theorem Setup.Simulated.refines (h : setup.Simulated setup' r) (hr : r.object = id)
    (hset : setup.WellFormed) (hset' : setup'.WellFormed) {entries : List MethodId}
    {order order' : WorklistOrder} {n n' : Nat}
    (hs : Solver.solve setup n entries (.initial order) = .ok () s)
    (ht : Solver.solve setup' n' entries (.initial order') = .ok () t) :
    (setup.solution s).Refines (setup'.solution t) := by
  obtain ⟨hsound, -, -⟩ := Solver.outcome_of_solve hset hs
  obtain ⟨hsound', -, hcomplete⟩ := Solver.outcome_of_solve hset' ht
  exact refines_of_pulls hsound hsound' hr fun f hf =>
    h.pulls_of_solve hset hcomplete (fun _ hm => hm) hs hf

end

/-- Two selectors on one program: the contexts of the one translate to those of the other. -/
theorem simulated_of_contexts {p : Program} {fine coarse : Selector} {μ η : Context → Context}
    (entry : μ fine.entryContext = coarse.entryContext)
    (static : ∀ c site m, coarse.calleeContext (μ c) site none m = μ (fine.calleeContext c site none m))
    (receiver : ∀ c site h a m, coarse.calleeContext (μ c) site (some ⟨η h, a⟩) m =
      μ (fine.calleeContext c site (some ⟨h, a⟩) m))
    (heap : ∀ c a, coarse.heapContext (μ c) a = η (fine.heapContext c a)) :
    (p.setup fine).Simulated (p.setup coarse) ⟨μ, η, id⟩ where
  entry := entry
  stmt h := h
  method h := ⟨_, h, rfl, rfl, List.Subset.refl _⟩
  noMethod h := h
  resolveStatic _ := rfl
  staticCallee := static
  allocation h := ⟨_, h, rfl, fun c => heap c _⟩
  receiver h := ⟨_, h, fun _ => rfl, fun c site k m => receiver c site k _ m⟩

open Solver

variable {p : Program}

/-! ## No contexts at all -/

/-- All contexts are erased. -/
theorem simulated_insensitive (selector : Selector) :
    (p.setup selector).Simulated (p.setup .insensitive) ⟨fun _ => ∅, fun _ => ∅, id⟩ :=
  simulated_of_contexts rfl (fun _ _ _ => rfl) (fun _ _ _ _ _ => rfl) fun _ _ => rfl

/-- Context sensitivity only refines. On every checked program and with every selector, once the run
without contexts ends well, so does every run from the same entries that does not run out of fuel, and
its solution refines the one without contexts. -/
theorem refines_insensitive (hp : p.validate = .ok ()) (selector : Selector)
    (order order' : WorklistOrder) (entries : List MethodId) (n n' : Nat) (t : State)
    (ht : solve (p.setup .insensitive) n' entries (.initial order') = .ok () t)
    (hends : ∀ s, solve (p.setup selector) n entries (.initial order) ≠ .error .outOfFuel s) :
    ∃ s, solve (p.setup selector) n entries (.initial order) = .ok () s ∧
      ((p.setup selector).solution s).Refines ((p.setup .insensitive).solution t) := by
  have hset : (p.setup selector).WellFormed := Program.wellFormed_setup hp
  have hset' : (p.setup .insensitive).WellFormed := Program.wellFormed_setup hp
  have hsim : (p.setup selector).Simulated (p.setup .insensitive) _ := simulated_insensitive selector
  obtain ⟨-, -, hcomplete⟩ := outcome_of_solve hset' ht
  cases hs : solve (p.setup selector) n entries (.initial order) with
  | ok _ s => exact ⟨s, rfl, hsim.refines rfl hset hset' hs ht⟩
  | error e s =>
    have he := hsim.error_eq_outOfFuel hset hcomplete (fun _ hm => hm) (ne_nil_of_solve ht) hs
    rw [he] at hs
    exact absurd hs (hends s)

/-- A selector that is none of the shipped ones and whose entry context is not empty. -/
def Sample.selector : Selector where
  name := "sample"
  entryContext := .singleton (.type 0)
  calleeContext caller site receiver _ :=
    match receiver with
    | some r => r.heapContext.append (.callSite site) 2
    | none => caller
  heapContext method object := method.append (.object object.id) 2

/-- The small program is solved with a selector of its own, which refines the run without contexts. -/
theorem refines_insensitive_sample : ∃ t,
    solve (Sample.program.setup .insensitive) 20 [0] (.initial .fifo) = .ok () t ∧
    (∀ s, solve (Sample.program.setup Sample.selector) 20 [0] (.initial .lifo) ≠ .error .outOfFuel s) ∧
    ∃ s, solve (Sample.program.setup Sample.selector) 20 [0] (.initial .lifo) = .ok () s ∧
      ((Sample.program.setup Sample.selector).solution s).Refines
        ((Sample.program.setup .insensitive).solution t) := by
  obtain ⟨⟨⟩, t, ht⟩ := exists_eq_ok (by decide +kernel :
    Ends (solve (Sample.program.setup .insensitive) 20 [0]) (.initial .fifo)
      (fun _ _ => True) fun _ _ => False)
  obtain ⟨⟨⟩, s, hs⟩ := exists_eq_ok (by decide +kernel :
    Ends (solve (Sample.program.setup Sample.selector) 20 [0]) (.initial .lifo)
      (fun _ _ => True) fun _ _ => False)
  have hends : ∀ s, solve (Sample.program.setup Sample.selector) 20 [0] (.initial .lifo) ≠
      .error .outOfFuel s := by
    intro u hu
    rw [hs] at hu
    cases hu
  exact ⟨t, ht, hends, refines_insensitive Sample.validate_program Sample.selector .lifo .fifo [0] 20 20
    t ht hends⟩

/-! ## Deeper and shallower contexts -/

/-- How many elements of a method's context a policy can tell apart: a receiver brings its heap context
and one element. -/
def ContextPolicy.distinguished (policy : ContextPolicy) (k heapK : Nat) : Nat :=
  match policy with
  | .insensitive | .callSite => k
  | .object | .type => min k (heapK + 1)

section

variable {k heapK k' heapK' : Nat} (hheap' : heapK' ≤ k') (hk : k' ≤ k) (hheap : heapK' ≤ heapK)

include hheap' hk hheap

/-- Truncating commutes with what is made of receivers, if methods keep one element more than objects. -/
theorem simulated_receiverBased (name name' : String) (element : AbstractObject → ContextElement) :
    (p.setup (.receiverBased name element k heapK)).Simulated
      (p.setup (.receiverBased name' element k' heapK'))
      ⟨(·.truncate (min k' (heapK' + 1))), (·.truncate heapK'), id⟩ := by
  refine simulated_of_contexts (Context.truncate_empty _) ?_ ?_ ?_
  · intro c site m
    show (c.truncate (min k' (heapK' + 1))).truncate k' = (c.truncate k).truncate (min k' (heapK' + 1))
    rw [Context.truncate_truncate, Context.truncate_truncate]
    congr 1
    omega
  · intro c site h a m
    -- the receiver's heap context is cut before the element goes behind it, so one more is kept
    show (h.truncate heapK').append (element a) k' =
      (h.append (element a) k).truncate (min k' (heapK' + 1))
    rw [Context.append_truncate, Context.truncate_append]
    congr 1
    omega
  · intro c a
    show (c.truncate (min k' (heapK' + 1))).truncate heapK' = (c.truncate heapK).truncate heapK'
    rw [Context.truncate_truncate, Context.truncate_truncate]
    congr 1
    omega

/-- Truncating its contexts takes a policy from deeper to shallower depths. -/
theorem simulated_deeper (policy : ContextPolicy) :
    (p.setup (policy.selector k heapK)).Simulated (p.setup (policy.selector k' heapK'))
      ⟨(·.truncate (policy.distinguished k' heapK')), (·.truncate heapK'), id⟩ := by
  cases policy with
  | insensitive =>
    have hempty : ∀ n, (∅ : Context) = (∅ : Context).truncate n :=
      fun n => (Context.truncate_empty n).symm
    exact simulated_of_contexts (hempty _).symm (fun _ _ _ => hempty _) (fun _ _ _ _ _ => hempty _)
      fun _ _ => hempty _
  | callSite =>
    have happend : ∀ (c : Context) e, (c.truncate k').append e k' = (c.append e k).truncate k' := by
      intro c e
      rw [Context.append_truncate, Context.truncate_append]
      congr 1
      omega
    refine simulated_of_contexts (Context.truncate_empty _) (fun c _ _ => happend c _)
      (fun c _ _ _ _ => happend c _) ?_
    intro c a
    show (c.truncate k').truncate heapK' = (c.truncate heapK).truncate heapK'
    rw [Context.truncate_truncate, Context.truncate_truncate]
    congr 1
    omega
  | object => exact simulated_receiverBased hheap' hk hheap _ _ fun a => .object a.id
  | type => exact simulated_receiverBased hheap' hk hheap _ _ fun a => .type a.container

end

/-- Deeper contexts never lose precision. Once the run of a policy at depths of `k'` and `heapK'` ends
well, so does the run at larger depths, given fuel for as many steps as it may take, and its solution
refines the shallower one. -/
theorem deeper_refines (hp : p.validate = .ok ()) (policy : ContextPolicy) {k heapK k' heapK' : Nat}
    (hheap' : heapK' ≤ k') (hk : k' ≤ k) (hheap : heapK' ≤ heapK) (order order' : WorklistOrder)
    (entries : List MethodId) (n' : Nat) (t : State)
    (ht : solve (p.setup (policy.selector k' heapK')) n' entries (.initial order') = .ok () t) :
    (∀ n, p.stepBound k heapK ≤ n →
      ∃ s, solve (p.setup (policy.selector k heapK)) n entries (.initial order) = .ok () s) ∧
    ∀ n s, solve (p.setup (policy.selector k heapK)) n entries (.initial order) = .ok () s →
      ((p.setup (policy.selector k heapK)).solution s).Refines
        ((p.setup (policy.selector k' heapK')).solution t) := by
  have hset : (p.setup (policy.selector k heapK)).WellFormed := Program.wellFormed_setup hp
  have hset' : (p.setup (policy.selector k' heapK')).WellFormed := Program.wellFormed_setup hp
  have hsim : (p.setup (policy.selector k heapK)).Simulated (p.setup (policy.selector k' heapK')) _ :=
    simulated_deeper hheap' hk hheap policy
  obtain ⟨-, -, hcomplete⟩ := outcome_of_solve hset' ht
  constructor
  · intro n hn
    exact hsim.exists_solve hp hcomplete (fun _ hm => hm) (ne_nil_of_solve ht) order hn
  · intro n s hs
    exact hsim.refines rfl hset hset' hs ht

/-- On the small program three receivers with one for objects refine two receivers with none for
objects, where the second of two can not be told apart from any other. -/
theorem deeper_refines_sample : 0 ≤ 2 ∧ 2 ≤ 3 ∧ 0 ≤ 1 ∧ ∃ t,
    solve (Sample.program.setup (ContextPolicy.object.selector 2 0)) 20 [0] (.initial .fifo) =
      .ok () t ∧
    ∃ s, solve (Sample.program.setup (ContextPolicy.object.selector 3 1)) (Sample.program.stepBound 3 1)
        [0] (.initial .lifo) = .ok () s ∧
      ((Sample.program.setup (ContextPolicy.object.selector 3 1)).solution s).Refines
        ((Sample.program.setup (ContextPolicy.object.selector 2 0)).solution t) := by
  obtain ⟨⟨⟩, t, ht⟩ := exists_eq_ok (by decide +kernel :
    Ends (solve (Sample.program.setup (ContextPolicy.object.selector 2 0)) 20 [0]) (.initial .fifo)
      (fun _ _ => True) fun _ _ => False)
  have hboth := deeper_refines Sample.validate_program .object (by decide : 0 ≤ 2) (by decide : 2 ≤ 3)
    (by decide : 0 ≤ 1) .lifo .fifo [0] 20 t ht
  obtain ⟨s, hs⟩ := hboth.1 _ (Nat.le_refl _)
  exact ⟨by decide, by decide, by decide, t, ht, s, hs, hboth.2 _ s hs⟩

end PointsTo
