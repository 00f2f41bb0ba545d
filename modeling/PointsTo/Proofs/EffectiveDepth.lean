import PointsTo.Proofs.Agreement
import PointsTo.Proofs.ContextSuffix

/-!
# How deep the contexts of receivers become

The context of a method is the heap context of its receiver with one element more, and a heap context is
what is left of the context of the allocating method when it is cut to `heapK` elements. Static calls
pass their context on. So where method contexts may have `heapK + 1` elements or more, they never have
more than that: only heap contexts are ever cut, and all these depths give the same run
(`effective_depth`).

That method contexts are bounded because heap contexts are, and the other way round, is one invariant of
what the solver knows (`Shallow`). As long as it holds, the selectors of all these depths agree.
-/

namespace PointsTo

/-! ## Cuts that cut nothing -/

namespace Context

variable {c : Context} {e : ContextElement} {k n : Nat}

theorem depth_truncate_le (c : Context) (n : Nat) : (c.truncate n).depth ≤ n :=
  length_lastOf_le n c.elements

theorem truncate_of_depth_le (h : c.depth ≤ k) : c.truncate k = c := by
  have hlength : c.elements.length - k = 0 := Nat.sub_eq_zero_of_le h
  show mk (c.elements.drop (c.elements.length - k)) = c
  rw [hlength, List.drop_zero]

/-- With room for one more, an element is put behind the whole context. -/
theorem append_of_depth_lt (h : c.depth < k) : c.append e k = ⟨c.elements ++ [e]⟩ := by
  have hdepth : depth ⟨c.elements ++ [e]⟩ ≤ k := by
    rw [depth, List.length_append]
    exact h
  exact truncate_of_depth_le hdepth

theorem depth_append_of_depth_lt (h : c.depth < k) : (c.append e k).depth = c.depth + 1 := by
  rw [append_of_depth_lt h, depth, List.length_append]
  rfl

end Context

/-! ## The invariant -/

/-- No known context has more than `n + 1` elements, and the heap context of a known object has `n` at
most. -/
structure Shallow (n : Nat) (C : Interner Context) (O : Interner CSObj) : Prop where
  context : ∀ {i c}, C.get? i = some c → c.depth ≤ n + 1
  object : ∀ {j o}, O.get? j = some o → ∃ h, C.get? o.heapContext = some h ∧ h.depth ≤ n

namespace Shallow

variable {n : Nat} {C : Interner Context} {O : Interner CSObj} {c : Context}

theorem initial : Shallow n Arena.initial.contexts Arena.initial.objects where
  context hi := Solver.context_of_initial hi ▸ Nat.zero_le (n + 1)
  object hj := nomatch hj

theorem intern (h : Shallow n C O) (hc : c.depth ≤ n + 1) : Shallow n (C.intern c).2 O where
  context hi := by
    rcases Interner.get?_of_intern hi with hi | ⟨-, rfl⟩
    · exact h.context hi
    · exact hc
  object hj := by
    obtain ⟨heap, hheap, hdepth⟩ := h.object hj
    exact ⟨heap, Interner.get?_intern_of_some hheap, hdepth⟩

theorem internObject (h : Shallow n C O) (hc : c.depth ≤ n) (o : ObjId) :
    Shallow n (C.intern c).2 (O.intern ⟨(C.intern c).1, o⟩).2 where
  context hi := (h.intern (Nat.le_succ_of_le hc)).context hi
  object hj := by
    rcases Interner.get?_of_intern hj with hj | ⟨-, rfl⟩
    · exact (h.intern (Nat.le_succ_of_le hc)).object hj
    · exact ⟨c, Interner.get?_intern_self, hc⟩

end Shallow

/-- Two depths for method contexts that both leave room for a heap context and one element more make no
difference. -/
theorem agree_receiverBased {n k k' : Nat} (hk : n + 1 ≤ k) (hk' : n + 1 ≤ k') (name name' : String)
    (element : AbstractObject → ContextElement) :
    Selector.Agree (Shallow n) (.receiverBased name element k n) (.receiverBased name' element k' n) where
  entry h := ⟨rfl, h.intern (Nat.zero_le (n + 1))⟩
  static {C O i caller} _ _ h hi := by
    have hdepth : caller.depth ≤ n + 1 := h.context hi
    have hkept : caller.truncate k = caller := Context.truncate_of_depth_le (hdepth.trans hk)
    have hkept' : caller.truncate k' = caller := Context.truncate_of_depth_le (hdepth.trans hk')
    show caller.truncate k = caller.truncate k' ∧ Shallow n (C.intern (caller.truncate k)).2 O
    rw [hkept, hkept']
    exact ⟨rfl, h.intern hdepth⟩
  receiver {C O _ _ _ _ heap} _ object _ h _ hj hheap := by
    obtain ⟨heap', hheap', hdepth⟩ := h.object hj
    obtain rfl := Option.some.inj (hheap.symm.trans hheap')
    have hroom : heap.depth < n + 1 := Nat.lt_succ_of_le hdepth
    have hlength : (heap.append (element object) k).depth = heap.depth + 1 :=
      Context.depth_append_of_depth_lt (hroom.trans_le hk)
    show heap.append (element object) k = heap.append (element object) k' ∧
      Shallow n (C.intern (heap.append (element object) k)).2 O
    refine ⟨?_, h.intern (hlength.trans_le hroom)⟩
    rw [Context.append_of_depth_lt (hroom.trans_le hk), Context.append_of_depth_lt (hroom.trans_le hk')]
  heap _ h _ := ⟨rfl, h.internObject (Context.depth_truncate_le _ n) _⟩

theorem agree_selector {policy : ContextPolicy} (hpolicy : policy = .object ∨ policy = .type)
    {k heapK : Nat} (hk : heapK + 1 ≤ k) :
    Selector.Agree (Shallow heapK) (policy.selector k heapK) (policy.selector (heapK + 1) heapK) := by
  rcases hpolicy with rfl | rfl
  · show Selector.Agree (Shallow heapK) (.objectSensitive k heapK) (.objectSensitive (heapK + 1) heapK)
    exact agree_receiverBased hk (Nat.le_refl _) _ _ _
  · show Selector.Agree (Shallow heapK) (.typeSensitive k heapK) (.typeSensitive (heapK + 1) heapK)
    exact agree_receiverBased hk (Nat.le_refl _) _ _ _

/-! ## Runs -/

/-- No method context has more than `n + 1` elements, and no heap context more than `n`. -/
structure State.DepthsWithin (n : Nat) (s : State) : Prop where
  method : ∀ i m, s.arena.method? i = some m → m.context.depth ≤ n + 1
  object : ∀ i o, s.arena.object? i = some o → o.heapContext.depth ≤ n

theorem State.Under.depthsWithin {n : Nat} {s : State} (h : s.Under (Shallow n)) : s.DepthsWithin n where
  method i m hm := by
    obtain ⟨c, -, hc⟩ := Arena.method?_eq_some_iff.1 hm
    exact h.context hc
  object i o ho := by
    obtain ⟨c, hi, hc⟩ := Arena.object?_eq_some_iff.1 ho
    obtain ⟨heap, hheap, hdepth⟩ := h.object hi
    obtain rfl := Option.some.inj (hc.symm.trans hheap)
    exact hdepth

namespace Solver

/-- Under object and type sensitivity, a depth of `heapK + 1` for method contexts is as good as any
greater one. After any requests, single steps among them, the two solvers are in the same state and have
reported the same errors; from there on seeding, a step and a run each end in the same way, with the same
answer or error and in the same state, and so does a whole run from the start. No method context ever
becomes longer than `heapK + 1`, and no heap context longer than `heapK`. -/
theorem effective_depth (p : Program) {policy : ContextPolicy}
    (hpolicy : policy = .object ∨ policy = .type) {k heapK : Nat} (hk : heapK + 1 ≤ k)
    (order : WorklistOrder) (rs : List Request) :
    let deep := p.setup (policy.selector k heapK)
    let least := p.setup (policy.selector (heapK + 1) heapK)
    let session := serve least order rs
    serve deep order rs = session ∧
    (∀ n, step deep n session.state = step least n session.state) ∧
    (∀ n, run deep n session.state = run least n session.state) ∧
    (∀ entries, seed deep entries session.state = seed least entries session.state) ∧
    (∀ n entries, solve deep n entries (.initial order) = solve least n entries (.initial order)) ∧
    session.state.DepthsWithin heapK ∧
    ∀ n entries, (after (solve deep n entries) (.initial order)).DepthsWithin heapK := by
  intro deep least session
  have hA : Selector.Agree (Shallow heapK) (policy.selector k heapK) (policy.selector (heapK + 1) heapK) :=
    agree_selector hpolicy hk
  have hstart : (State.initial order).Under (Shallow heapK) := Shallow.initial
  obtain ⟨hsame, hunder⟩ : serve deep order rs = session ∧
      (serve deep order rs).state.Under (Shallow heapK) := serve_eq_of_agree hA order rs hstart
  rw [hsame] at hunder
  refine ⟨hsame, ?_, ?_, ?_, ?_, hunder.depthsWithin, ?_⟩
  · intro n
    exact (inStep_step hA n hunder).1
  · intro n
    exact (inStep_run hA n hunder).1
  · intro entries
    exact (inStep_seed hA entries hunder).1
  · intro n entries
    exact (inStep_solve hA n entries hstart).1
  · intro n entries
    have hsolve : InStep (Shallow heapK) (solve deep n entries) (solve least n entries) (.initial order) :=
      inStep_solve hA n entries hstart
    exact hsolve.2.depthsWithin

def Sample.toTheEnd : List Request := [.seed [0], .step 9, .run 60]

/-- In the recursive program each call of the second method has a new receiver, and five elements of its
context could be kept. There are never more than two. -/
theorem effective_depth_recursive :
    (ContextPolicy.object = .object ∨ ContextPolicy.object = .type) ∧ 1 + 1 ≤ 5 ∧
    (serve (Sample.recursive.setup (ContextPolicy.object.selector 5 1)) .fifo Sample.toTheEnd).errors = [] ∧
    ((serve (Sample.recursive.setup (ContextPolicy.object.selector 5 1)) .fifo
      Sample.toTheEnd).state.arena.contexts.toList.map (·.depth)) = [0, 1, 2, 1, 2] ∧
    serve (Sample.recursive.setup (ContextPolicy.object.selector 5 1)) .fifo Sample.toTheEnd =
      serve (Sample.recursive.setup (ContextPolicy.object.selector 2 1)) .fifo Sample.toTheEnd ∧
    (serve (Sample.recursive.setup (ContextPolicy.object.selector 2 1)) .fifo
      Sample.toTheEnd).state.DepthsWithin 1 := by
  have hpolicy : ContextPolicy.object = .object ∨ ContextPolicy.object = .type := Or.inl rfl
  have hk : 1 + 1 ≤ 5 := by decide
  obtain ⟨hsame, -, -, -, -, hwithin, -⟩ :=
    effective_depth Sample.recursive hpolicy hk .fifo Sample.toTheEnd
  exact ⟨hpolicy, hk, by decide +kernel, by decide +kernel, hsame, hwithin⟩

end Solver

end PointsTo
