import PointsTo.Proofs.Failures

/-!
# Finding again what has been found

A state is `Saturated` if what it has found misses nothing and whatever still arrives at a pointer is in
the pointer's set already. The state a run ends in is one. From a saturated state every action that
finds something again hits what is there: interning hands out the old ids, edges and entries are not
added twice, and the only trace is the counters and arrivals that bring nothing new (`Unmoved`). So no
sequence of such actions fails or changes a table (`replay_unmoved`).
-/

namespace PointsTo.Solver

variable {setup : Setup} {entries : List MethodId} {s t u : State} {m n : Nat}

/-! ## Interning what has an id -/

theorem intern_eq {op : Arena → Nat × Arena} {i : Nat} (h : op s.arena = (i, s.arena)) :
    intern op s = .ok i s := by
  show EStateM.Result.ok (op s.arena).1 { s with arena := (op s.arena).2 } = _
  rw [h]

theorem contextId_eq {k : ContextId} {c : Context} (h : s.arena.contexts.get? k = some c) :
    contextId c s = .ok k s := by
  refine intern_eq ?_
  rw [Arena.internContext, Interner.intern_of_find? (Interner.find?_eq_some_iff.2 h)]

section

variable {k : ContextId} {c : Context}

theorem methodId_eq (hk : s.arena.contexts.get? k = some c) {j : CSMethodId} {callee : MethodId}
    (hj : s.arena.method? j = some ⟨c, callee⟩) : methodId ⟨k, callee⟩ s = .ok j s := by
  obtain ⟨k', hj, hk'⟩ := Arena.method?_eq_some_iff.1 hj
  obtain rfl := Interner.eq_of_get? hk hk'
  refine intern_eq ?_
  rw [Arena.internMethod, Interner.intern_of_find? (Interner.find?_eq_some_iff.2 hj)]

theorem siteId_eq (hk : s.arena.contexts.get? k = some c) {i : CSSiteId} {site : Site}
    (hi : s.arena.site? i = some ⟨c, site⟩) : siteId ⟨k, site⟩ s = .ok i s := by
  obtain ⟨k', hi, hk'⟩ := Arena.site?_eq_some_iff.1 hi
  obtain rfl := Interner.eq_of_get? hk hk'
  refine intern_eq ?_
  rw [Arena.internSite, Interner.intern_of_find? (Interner.find?_eq_some_iff.2 hi)]

theorem pointerId_eq {p : Pointer} {l : Location} (hp : s.arena.locate? p = some l) {i : PointerId}
    (hi : s.arena.location? i = some l) : pointerId p s = .ok i s := by
  obtain ⟨q, hi, hq⟩ := Arena.location?_eq_some_iff.1 hi
  obtain rfl := Arena.eq_of_locate? hp hq
  exact intern_eq (Arena.internPointer_of_find? (Interner.find?_eq_some_iff.2 hi))

end

/-! ## Saturated states -/

/-- Nothing is missing, no method waits to be wired, and no arrival brings anything new. -/
structure Saturated (setup : Setup) (entries : List MethodId) (s : State) : Prop where
  complete : Complete setup entries s.Found
  arena : s.arena.WellFormed
  pointsTo : ∀ i j, j ∈ s.pointsTo i → j < s.arena.objects.size
  pending : s.pending.toList = []
  arrivals : ∀ a ∈ s.worklist.toList, ∀ k ∈ a.objects, k ∈ s.pointsTo a.pointer

/-- All tables are as they were; at most `n` arrivals more wait, and those bring nothing new. -/
structure Unmoved (n : Nat) (s t : State) : Prop where
  arena : t.arena = s.arena
  flow : t.flow = s.flow
  callGraph : t.callGraph = s.callGraph
  pending : t.pending = s.pending
  waiting : t.worklist.toList.length ≤ s.worklist.toList.length + n
  arrivals : ∀ a ∈ t.worklist.toList, a ∈ s.worklist.toList ∨
    ∀ k ∈ a.objects, k ∈ s.pointsTo a.pointer

theorem Unmoved.refl (s : State) : Unmoved n s s :=
  ⟨rfl, rfl, rfl, rfl, Nat.le_add_right _ _, fun _ h => Or.inl h⟩

theorem Unmoved.trans (h : Unmoved m s t) (h' : Unmoved n t u) : Unmoved (m + n) s u where
  arena := h'.arena.trans h.arena
  flow := h'.flow.trans h.flow
  callGraph := h'.callGraph.trans h.callGraph
  pending := h'.pending.trans h.pending
  waiting := by
    have hm := h.waiting
    have hn := h'.waiting
    omega
  arrivals a ha := by
    rcases h'.arrivals a ha with ha | hold
    · exact h.arrivals a ha
    · refine Or.inr ?_
      rwa [State.pointsTo, h.arena] at hold

theorem Unmoved.mono (h : Unmoved m s t) (hle : m ≤ n) : Unmoved n s t :=
  { h with waiting := h.waiting.trans (Nat.add_le_add_left hle _) }

theorem Unmoved.found_eq (h : Unmoved n s t) : t.Found = s.Found :=
  funext fun _ => propext ⟨State.found_of_eq h.arena.symm h.flow.symm h.callGraph.symm,
    State.found_of_eq h.arena h.flow h.callGraph⟩

theorem Unmoved.saturated (h : Unmoved n s t) (hs : Saturated setup entries s) :
    Saturated setup entries t := by
  have hpts : t.pointsTo = s.pointsTo := by
    funext i
    rw [State.pointsTo, State.pointsTo, h.arena]
  refine ⟨h.found_eq ▸ hs.complete, h.arena ▸ hs.arena, ?_, h.pending ▸ hs.pending, ?_⟩
  · rw [hpts, h.arena]
    exact hs.pointsTo
  · rw [hpts]
    intro a ha
    exact (h.arrivals a ha).elim (hs.arrivals a) id

/-- The action never fails, and it leaves all tables as they are. -/
def Rests {α : Type} (n : Nat) (x : SolveM α) (s : State) : Prop :=
  Ends x s (fun _ t => Unmoved n s t) fun _ _ => False

section

variable {α β : Type} {x : SolveM α} {f : α → SolveM β}

theorem Rests.of_eq {a : α} (h : x s = .ok a s) : Rests n x s := Ends.of_eq h (.refl s)

theorem Rests.bind (hx : Rests m x s)
    (hf : ∀ a t, Unmoved m s t → Rests n (f a) t) : Rests (m + n) (x >>= f) s := by
  refine Ends.bind hx (fun a t ht => ?_) fun _ _ h => h
  exact (hf a t ht).mono (fun _ _ => ht.trans) fun _ _ h => h

theorem Rests.bind_of_eq {a : α} (hx : x s = .ok a s) (hf : Rests n (f a) s) :
    Rests n (x >>= f) s := Ends.bind_of_eq hx hf

theorem Rests.forM {xs : List α} {g : α → SolveM Unit}
    (h : ∀ x ∈ xs, ∀ m t, Unmoved m s t → Rests n (g x) t) : Rests (xs.length * n) (xs.forM g) s := by
  induction xs generalizing s with
  | nil => exact .of_eq rfl
  | cons x xs ih =>
    rw [List.length_cons, Nat.succ_mul, Nat.add_comm]
    refine Rests.bind (h x List.mem_cons_self 0 s (.refl s)) fun _ t ht => ?_
    exact ih fun y hy m u hu => h y (List.mem_cons_of_mem x hy) _ u (ht.trans hu)

end

theorem rests_arrive {i : PointerId} {k : CSObjId} (hk : k ∈ s.pointsTo i) :
    Rests 1 (arrive i (.singleton k)) s := by
  have hpush : (s.arrive i (.singleton k)).worklist.toList =
      s.worklist.toList ++ [⟨i, .singleton k⟩] := Worklist.toList_push
  refine Ends.of_eq rfl ⟨rfl, rfl, rfl, rfl, ?_, ?_⟩
  · rw [hpush, List.length_append, List.length_singleton]
  · intro a ha
    rw [hpush, List.mem_append, List.mem_singleton] at ha
    rcases ha with ha | rfl
    · exact Or.inl ha
    · refine Or.inr fun k' hk' => ?_
      rwa [IdSet.mem_singleton.1 hk']

/-! ## Each action once more -/

theorem rests_addFlow {i j : PointerId} (h : j ∈ s.flow.successors i) : Rests 0 (addFlow i j) s := by
  refine Rests.of_eq (a := ()) ?_
  show EStateM.Result.ok () (s.addFlow i j) = _
  rw [State.addFlow, if_pos (FlowGraph.hasEdge_iff.2 h)]

theorem rests_connectCall {kind : EdgeKind} {i : CSSiteId} {j : CSMethodId} (d : Call)
    (h : s.callGraph.hasEdge i j = true) : Rests 0 (connectCall setup kind i j d) s := by
  unfold connectCall
  refine Rests.bind_of_eq get_eq ?_
  rw [if_pos h]
  exact .of_eq rfl

theorem rests_addReachable {j : CSMethodId} (hj : j ∈ s.callGraph.reachable) :
    Rests 0 (addReachable setup j) s := .of_eq (addReachable_of_mem hj)

/-- A method that is found reachable has one id, and that is listed. -/
theorem mem_reachable_of_found {j : CSMethodId} {m : MethodInstance}
    (hj : s.arena.method? j = some m) (h : s.Found (.reachable m)) : j ∈ s.callGraph.reachable := by
  obtain ⟨i, hi, him⟩ := h
  rwa [Arena.eq_of_method? him hj] at hi

theorem rests_seedEntry (hs : Saturated setup entries s) {k : ContextId} {c : Context}
    (hk : s.arena.contexts.get? k = some c) {entry : MethodId}
    (hentry : s.Found (.entry ⟨c, entry⟩)) : Rests 0 (seedEntry setup k entry) s := by
  have hreach := hs.complete.closed.rule .entry hentry
  obtain ⟨j, hj, hjm⟩ := hentry
  have hsame : { s with callGraph := s.callGraph.addEntry j } = s := by
    rw [CallGraph.addEntry, if_pos hj]
  unfold seedEntry
  refine Rests.bind_of_eq (methodId_eq hk hjm) ?_
  refine Rests.bind_of_eq (modify_eq.trans (congrArg _ hsame)) ?_
  exact rests_addReachable (mem_reachable_of_found hjm hreach)

theorem rests_seed (hs : Saturated setup entries s) {batch : List MethodId} (hne : batch ≠ [])
    (hbatch : ∀ n ∈ batch, s.Found (.entry ⟨setup.selector.entryContext, n⟩)) :
    Rests 0 (seed setup batch) s := by
  obtain ⟨entry, hentry⟩ := List.exists_mem_of_ne_nil batch hne
  have hclosed := hs.complete.closed
  have hreach := hclosed.rule .entry (hbatch entry hentry)
  obtain ⟨k, hk⟩ := hclosed.rule .methodContext (hclosed.rule .occurs hreach)
  unfold seed
  rw [if_neg (by simpa using hne)]
  refine Rests.bind_of_eq (contextId_eq hk) ?_
  show Rests (batch.length * 0) (batch.forM (seedEntry setup k)) s
  refine Rests.forM fun n hn m t ht => ?_
  refine rests_seedEntry (ht.saturated hs) (ht.arena ▸ hk) ?_
  rw [ht.found_eq]
  exact hbatch n hn

/-- A call made again on a receiver that has been met enters nothing; the receiver arrives at the
callee, which has it. -/
theorem rests_callOn (hset : setup.WellFormed) (hs : Saturated setup entries s) {k : ContextId}
    {c : Context} (hk : s.arena.contexts.get? k = some c) {j : CSObjId} {o : HeapObject}
    (ho : s.arena.object? j = some o) {v : VarId} (hv : s.Found (.pointsTo (.var c v) o)) {site : Site}
    (hsite : site ∈ (setup.program.uses v).calls) : Rests 1 (callOn setup k j site) s := by
  have hclosed := hs.complete.closed
  obtain ⟨d, hd, hstatic, hrecv⟩ := hset.mem_calls.1 hsite
  obtain ⟨a, ha⟩ := hs.complete.described o ⟨j, ho⟩
  obtain ⟨h, hj, hh⟩ := Arena.object?_eq_some_iff.1 ho
  unfold callOn
  refine Rests.bind_of_eq (known_eq hd) ?_
  refine Rests.bind_of_eq (objectOf_eq hj) ?_
  refine Rests.bind_of_eq (known_eq ha) ?_
  cases hres : setup.program.resolve? a.ty d with
  | none =>
    -- the miss is counted once more
    exact Ends.of_eq rfl ⟨rfl, rfl, rfl, rfl, Nat.le_succ _, fun _ h => Or.inl h⟩
  | some callee =>
    have hr : setup.Runs c site d v o (setup.instanceCallee c site o a callee) :=
      ⟨hd, hstatic, hrecv, a, callee, ha, hres, rfl⟩
    obtain ⟨method, hmethod⟩ := Program.method_of_resolve? hset.valid hres
    obtain ⟨this, hthis⟩ : ∃ this, method.this = some this := by
      cases hthis : method.this with
      | none => exact absurd (.refusal (.missingThis hr hmethod hthis)) (hs.complete.faultless _ _ hv)
      | some this => exact ⟨this, rfl⟩
    -- the call edge and what the receiver variable of the callee points to have been found
    obtain ⟨e, he, -, hx, hm⟩ := hclosed.rule (.invocation (.call hr)) hv
    have hedge : s.callGraph.hasEdge e.site e.callee = true := by
      rw [CallGraph.hasEdge_iff]
      exact ⟨e, he, rfl, rfl⟩
    obtain ⟨p, i, hi, hp, hio⟩ := hclosed.rule (.invocation (.receiver hr hmethod hthis)) hv
    obtain ⟨k', -, hk'⟩ := Arena.method?_eq_some_iff.1 hm
    obtain rfl := Arena.eq_of_object? hio ho
    refine Rests.bind_of_eq (contextOf_eq hk) ?_
    refine Rests.bind_of_eq (contextOf_eq hh) ?_
    refine Rests.bind_of_eq (contextId_eq hk') ?_
    refine Rests.bind_of_eq (methodId_eq hk' hm) ?_
    refine Rests.bind_of_eq (known_eq hmethod) ?_
    rw [hthis]
    refine Rests.bind_of_eq (pointerId_eq (locate?_var hk') hp) ?_
    refine Rests.bind (n := 0) (rests_arrive hi) fun _ t ht => ?_
    refine Rests.bind_of_eq (siteId_eq (i := e.site) (c := c) ?_ ?_) ?_
    · rw [ht.arena]
      exact hk
    · rw [ht.arena]
      exact hx
    · exact rests_connectCall d (ht.callGraph ▸ hedge)

theorem rests_callsOn (hset : setup.WellFormed) (hs : Saturated setup entries s) {k : ContextId}
    {v : VarId} {j : CSObjId} (hj : j ∈ s.arena.pointsToOf (.var k v)) :
    Rests setup.program.stmtCount (callsOn setup k v j) s := by
  obtain ⟨i, hi, hj⟩ := Arena.mem_pointsToOf.1 hj
  obtain ⟨l, hl⟩ := hs.arena.location i (Interner.lt_size_of_get? hi)
  obtain ⟨q, hq, hl'⟩ := Arena.location?_eq_some_iff.1 hl
  rw [hi] at hq
  cases hq
  obtain ⟨c, hk, rfl⟩ := Option.map_eq_some_iff.1 hl'
  obtain ⟨o, ho⟩ := hs.arena.object j (hs.pointsTo i j hj)
  have hv : s.Found (.pointsTo (.var c v) o) := ⟨i, j, hj, hl, ho⟩
  have hcalls := (length_uses_le hset v).2.2.2.2
  refine Ends.mono (Rests.forM (n := 1) fun site hsite m t ht => ?_)
    (fun _ _ h => h.mono (by omega)) fun _ _ h => h
  refine rests_callOn hset (ht.saturated hs) (c := c) (o := o) ?_ ?_ ?_ hsite
  · rw [ht.arena]
    exact hk
  · rw [ht.arena]
    exact ho
  · rw [ht.found_eq]
    exact hv

/-! ## Going on -/

/-- An arrival that brings nothing new does nothing. -/
theorem handle_of_subset {a : Arrival} (h : ∀ k ∈ a.objects, k ∈ s.pointsTo a.pointer) :
    handle setup a s = .ok () s := by
  have hempty : (a.objects.diff (s.pointsTo a.pointer)).isEmpty = true := by
    refine IdSet.isEmpty_iff.2 fun k hk => ?_
    obtain ⟨hka, hkn⟩ := IdSet.mem_diff.1 hk
    exact hkn (h k hka)
  have hsettle := settle_ite s a
  rw [if_pos hempty] at hsettle
  refine (bind_of_ok hsettle).trans ?_
  show meetAll setup a.pointer (a.objects.diff (s.pointsTo a.pointer)).toList s = _
  rw [List.isEmpty_iff.1 hempty]
  exact meetAll_nil a.pointer

/-- From a saturated state an arrival is taken and brings nothing, or nothing is left to do. -/
theorem advance_saturated (hs : Saturated setup entries s) :
    Ends (advance setup) s
      (fun done t => Unmoved 0 s t ∧
        (done = .handled ∧ t.worklist.toList.length + 1 = s.worklist.toList.length ∨
          done = .idle ∧ s.worklist.toList = []))
      fun _ _ => False := by
  unfold advance
  refine Ends.bind_of_eq get_eq ?_
  rw [Deque.popFront_eq_none_iff.2 hs.pending]
  refine Ends.bind_of_eq get_eq ?_
  cases hpop : s.worklist.pop with
  | none => exact Ends.of_eq rfl ⟨.refl s, Or.inr ⟨rfl, Worklist.pop_eq_none_iff.1 hpop⟩⟩
  | some next =>
    obtain ⟨a, w⟩ := next
    have hperm := Worklist.perm_of_pop hpop
    have hlen : s.worklist.toList.length = w.toList.length + 1 := hperm.length_eq
    have hold := hs.arrivals a (hperm.mem_iff.2 List.mem_cons_self)
    refine Ends.bind_of_eq modify_eq (Ends.bind_of_eq (handle_of_subset hold) ?_)
    refine Ends.of_eq rfl ⟨⟨rfl, rfl, rfl, rfl, ?_, fun b hb => Or.inl ?_⟩, Or.inl ⟨rfl, hlen.symm⟩⟩
    · exact hlen ▸ Nat.le_succ _
    · exact hperm.mem_iff.2 (List.mem_cons_of_mem a hb)

theorem step_saturated (hs : Saturated setup entries s) {fuel : Nat} (hfuel : 0 < fuel) :
    Ends (step setup fuel) s
      (fun handled t => Unmoved 0 s t ∧
        (handled = true ∧ t.worklist.toList.length + 1 = s.worklist.toList.length ∨
          handled = false ∧ s.worklist.toList = []))
      fun _ _ => False := by
  obtain ⟨fuel, rfl⟩ := Nat.exists_eq_add_one.2 hfuel
  refine Ends.bind (advance_saturated hs) ?_ fun _ _ h => h
  rintro done t ⟨ht, ⟨rfl, hlen⟩ | ⟨rfl, hnil⟩⟩
  · exact Ends.of_eq rfl ⟨ht, Or.inl ⟨rfl, hlen⟩⟩
  · exact Ends.of_eq rfl ⟨ht, Or.inr ⟨rfl, hnil⟩⟩

theorem rests_run (hs : Saturated setup entries s) {fuel : Nat}
    (hfuel : s.worklist.toList.length < fuel) : Rests 0 (run setup fuel) s := by
  induction fuel generalizing s with
  | zero => exact absurd hfuel (Nat.not_lt_zero _)
  | succ fuel ih =>
    refine Ends.bind (advance_saturated hs) ?_ fun _ _ h => h
    rintro done t ⟨ht, ⟨rfl, hlen⟩ | ⟨rfl, -⟩⟩
    · exact (ih (ht.saturated hs) (by omega)).mono (fun _ _ => ht.trans) fun _ _ h => h
    · exact Ends.of_eq rfl ht

/-! ## Where a run ends -/

/-- Every action ends in some way. -/
theorem Ends.trivial {α : Type} (x : SolveM α) (s : State) :
    Ends x s (fun _ _ => True) fun _ _ => True := by
  unfold Ends
  split <;> exact True.intro

/-- Nothing is left to do only if both queues are empty. -/
theorem ends_advance_idle (s : State) :
    Ends (advance setup) s
      (fun done t => done = .idle → t.pending.toList = [] ∧ t.worklist.toList = [])
      fun _ _ => True := by
  unfold advance
  refine Ends.bind_of_eq get_eq ?_
  cases hpop : s.pending.popFront with
  | some next =>
    refine Ends.bind_of_eq modify_eq (Ends.bind (Ends.trivial _ _) ?_ fun _ _ h => h)
    exact fun _ _ _ => Ends.of_eq rfl nofun
  | none =>
    refine Ends.bind_of_eq get_eq ?_
    cases hpop' : s.worklist.pop with
    | some next =>
      refine Ends.bind_of_eq modify_eq (Ends.bind (Ends.trivial _ _) ?_ fun _ _ h => h)
      exact fun _ _ _ => Ends.of_eq rfl nofun
    | none =>
      exact Ends.of_eq rfl fun _ =>
        ⟨Deque.popFront_eq_none_iff.1 hpop, Worklist.pop_eq_none_iff.1 hpop'⟩

/-- A run that ends well leaves both queues empty. -/
theorem ends_run_idle (n : Nat) (s : State) :
    Ends (run setup n) s (fun _ t => t.pending.toList = [] ∧ t.worklist.toList = [])
      fun _ _ => True := by
  induction n generalizing s with
  | zero => exact True.intro
  | succ n ih =>
    refine Ends.bind (ends_advance_idle s) (fun done t ht => ?_) fun _ _ h => h
    cases done with
    | wired | handled => exact ih t
    | idle => exact Ends.of_eq rfl (ht rfl)

theorem saturated_of_solve (hset : setup.WellFormed) {order : WorklistOrder}
    (h : solve setup n entries (.initial order) = .ok () s) :
    Saturated setup entries s ∧ s.worklist.toList = [] := by
  obtain ⟨hsound, -, hcomplete⟩ := outcome_of_solve hset h
  have hends : Ends (solve setup n entries) (.initial order)
      (fun _ t => t.pending.toList = [] ∧ t.worklist.toList = []) fun _ _ => True :=
    Ends.bind (Ends.trivial _ _) (fun _ t _ => ends_run_idle n t) fun _ _ h => h
  obtain ⟨hpending, hworklist⟩ := hends.ok_of_eq h
  have hw := hsound.wellFormed
  refine ⟨⟨hcomplete, hw.arena, hw.pointsTo, hpending, ?_⟩, hworklist⟩
  rw [hworklist]
  exact fun a ha => absurd ha List.not_mem_nil

/-! ## Sequences of actions -/

/-- What finds something again. -/
inductive Rediscovery where
  | seed (batch : List MethodId)
  | reach (m : CSMethodId)
  | flow (source target : PointerId)
  | receive (c : ContextId) (v : VarId) (o : CSObjId)
  | call (kind : EdgeKind) (site : CSSiteId) (callee : CSMethodId) (d : Call)
  | step
  | run

namespace Rediscovery

/-- Do it; steps and runs are given some fuel. -/
def perform (setup : Setup) (fuel : Nat) : Rediscovery → SolveM Unit
  | .seed batch => Solver.seed setup batch
  | .reach m => addReachable setup m
  | .flow source target => addFlow source target
  | .receive c v o => callsOn setup c v o
  | .call kind site callee d => connectCall setup kind site callee d
  | .step => do
    let _ ← Solver.step setup fuel
    pure ()
  | .run => Solver.run setup fuel

/-- It finds only what stands in the tables of `s`: entries that are listed, reachable methods, edges of
either graph, and objects that the variable points to. -/
def Within (setup : Setup) (s : State) : Rediscovery → Prop
  | .seed batch =>
    batch ≠ [] ∧ ∀ m ∈ batch, s.Found (.entry ⟨setup.selector.entryContext, m⟩)
  | .reach m => m ∈ s.callGraph.reachable
  | .flow source target => target ∈ s.flow.successors source
  | .receive c v o => o ∈ s.arena.pointsToOf (.var c v)
  | .call _ site callee _ => s.callGraph.hasEdge site callee = true
  | .step | .run => True

theorem Within.of_unmoved {op : Rediscovery} (h : op.Within setup s) (ht : Unmoved n s t) :
    op.Within setup t := by
  cases op with
  | seed batch =>
    refine ⟨h.1, fun m hm => ?_⟩
    rw [ht.found_eq]
    exact h.2 m hm
  | reach m =>
    show m ∈ t.callGraph.reachable
    rwa [ht.callGraph]
  | flow source target =>
    show target ∈ t.flow.successors source
    rwa [ht.flow]
  | receive c v o =>
    show o ∈ t.arena.pointsToOf (.var c v)
    rwa [ht.arena]
  | call kind site callee d =>
    show t.callGraph.hasEdge site callee = true
    rwa [ht.callGraph]
  | step | run => trivial

end Rediscovery

theorem rests_perform (hset : setup.WellFormed) (hs : Saturated setup entries s) {fuel : Nat}
    (hfuel : s.worklist.toList.length < fuel) {op : Rediscovery} (h : op.Within setup s) :
    Rests setup.program.stmtCount (op.perform setup fuel) s := by
  have hzero {x : SolveM Unit} (hx : Rests 0 x s) : Rests setup.program.stmtCount x s :=
    hx.mono (fun _ _ ht => ht.mono (Nat.zero_le _)) fun _ _ h => h
  cases op with
  | seed batch => exact hzero (rests_seed hs h.1 h.2)
  | reach m => exact hzero (rests_addReachable h)
  | flow source target => exact hzero (rests_addFlow h)
  | receive c v o => exact rests_callsOn hset hs h
  | call kind site callee d => exact hzero (rests_connectCall d h)
  | step =>
    refine hzero (Ends.bind (step_saturated hs (Nat.zero_lt_of_lt hfuel)) ?_ fun _ _ h => h)
    rintro - t ⟨ht, -⟩
    exact Ends.of_eq rfl ht
  | run => exact hzero (rests_run hs hfuel)

theorem rests_replay (hset : setup.WellFormed) (hs : Saturated setup entries s)
    (ops : List Rediscovery) (hops : ∀ op ∈ ops, op.Within setup s) {fuel : Nat}
    (hfuel : s.worklist.toList.length + ops.length * setup.program.stmtCount < fuel) :
    Rests (ops.length * setup.program.stmtCount) (ops.forM (·.perform setup fuel)) s := by
  induction ops generalizing s with
  | nil => exact .of_eq rfl
  | cons op ops ih =>
    rw [List.length_cons, Nat.succ_mul] at hfuel ⊢
    rw [Nat.add_comm]
    have hwaiting : s.worklist.toList.length < fuel := by omega
    have hfirst := rests_perform hset hs hwaiting (hops op List.mem_cons_self)
    refine Rests.bind hfirst fun _ t ht => ih (ht.saturated hs) (fun op' hop => ?_) ?_
    · exact (hops op' (List.mem_cons_of_mem op hop)).of_unmoved ht
    · have hle := ht.waiting
      omega

/-- Stepping on takes the arrivals one by one until nothing is left to do. -/
theorem exists_steps (hs : Saturated setup entries s) {fuel : Nat} (hfuel : 0 < fuel) :
    ∃ k t u, (List.replicate k Rediscovery.step).forM (·.perform setup fuel) s = .ok () t ∧
      step setup fuel t = .ok false u ∧ Unmoved 0 s u := by
  induction hk : s.worklist.toList.length generalizing s with
  | zero =>
    obtain ⟨handled, t, hstep, ht, ⟨-, hlen⟩ | ⟨rfl, -⟩⟩ := (step_saturated hs hfuel).exists_ok
    · rw [hk] at hlen
      exact absurd hlen (Nat.succ_ne_zero _)
    · exact ⟨0, s, t, rfl, hstep, ht⟩
  | succ k ih =>
    obtain ⟨handled, t, hstep, ht, ⟨-, hlen⟩ | ⟨-, hnil⟩⟩ := (step_saturated hs hfuel).exists_ok
    · obtain ⟨k, u, v, hu, hv, hsame⟩ := ih (ht.saturated hs) (by omega)
      refine ⟨k + 1, u, v, ?_, hv, ht.trans hsame⟩
      have hfirst : Rediscovery.step.perform setup fuel s = .ok () t := bind_of_ok hstep
      exact (bind_of_ok hfirst).trans hu
    · rw [hnil] at hk
      exact absurd hk.symm (Nat.succ_ne_zero k)

/-- However often a run that has ended well is made to find again what it has found, and is stepped or
continued in between, nothing fails and every table stays as it is. Stepping on ends, with the same
tables. Each action leaves behind at most as many arrivals as the program has statements, so there is
fuel that suffices for all. -/
theorem replay_unmoved {p : Program} (hp : p.validate = .ok ()) (selector : Selector)
    (order : WorklistOrder) (entries : List MethodId) (n : Nat) (s : State)
    (h : solve (p.setup selector) n entries (.initial order) = .ok () s)
    (ops : List Rediscovery) (hops : ∀ op ∈ ops, op.Within (p.setup selector) s) (fuel : Nat)
    (hfuel : ops.length * p.stmtCount < fuel) :
    ∃ t, ops.forM (·.perform (p.setup selector) fuel) s = .ok () t ∧
      (t.arena = s.arena ∧ t.flow = s.flow ∧ t.callGraph = s.callGraph) ∧
      ∃ k u v, (List.replicate k Rediscovery.step).forM (·.perform (p.setup selector) fuel) t =
          .ok () u ∧ step (p.setup selector) fuel u = .ok false v ∧
        v.arena = s.arena ∧ v.flow = s.flow ∧ v.callGraph = s.callGraph := by
  have hset : (p.setup selector).WellFormed := Program.wellFormed_setup hp
  obtain ⟨hs, hempty⟩ := saturated_of_solve hset h
  have hreplay : Rests (ops.length * p.stmtCount) (ops.forM (·.perform (p.setup selector) fuel)) s := by
    refine rests_replay hset hs ops hops ?_
    rw [hempty, List.length_nil, Nat.zero_add]
    exact hfuel
  obtain ⟨⟨⟩, t, hops, ht⟩ := hreplay.exists_ok
  obtain ⟨k, u, v, hu, hv, hsame⟩ := exists_steps (ht.saturated hs) (Nat.zero_lt_of_lt hfuel)
  have hall := ht.trans hsame
  exact ⟨t, hops, ⟨ht.arena, ht.flow, ht.callGraph⟩, k, u, v, hu, hv, hall.arena, hall.flow,
    hall.callGraph⟩

/-- In the small program everything is found once more: the entry, the callee, the flow from `a` to `x`,
the receiver of the call, and the call. -/
def Sample.again : List Rediscovery :=
  [.seed [0, 0], .receive 0 0 0, .step, .reach 1, .flow 0 5,
    .call .virtual 0 1
      { mode := .virtual, target := ⟨0, "A id(A)"⟩, receiver := some 0, args := [0], result := some 1 },
    .run]

/-- Each kind of discovery is made once more, and the run that follows has nothing to do. -/
theorem replay_unmoved_sample : ∃ s t,
    solve (Sample.program.setup (.callSite 1 1)) 20 [0] (.initial .lifo) = .ok () s ∧
      Sample.again.forM (·.perform (Sample.program.setup (.callSite 1 1)) 30) s = .ok () t ∧
      t.arena = s.arena ∧ t.flow = s.flow ∧ t.callGraph = s.callGraph := by
  obtain ⟨⟨⟩, s, hs, hentry, hreceive, hreach, hflow, hedge⟩ := Ends.exists_ok (by decide +kernel :
    Ends (solve (Sample.program.setup (.callSite 1 1)) 20 [0]) (.initial .lifo)
      (fun _ s => (∃ i ∈ s.callGraph.entries, s.arena.method? i = some ⟨∅, 0⟩) ∧
        0 ∈ s.arena.pointsToOf (.var 0 0) ∧ 1 ∈ s.callGraph.reachable ∧
        5 ∈ s.flow.successors 0 ∧ s.callGraph.hasEdge 0 1 = true)
      fun _ _ => False)
  have hops : ∀ op ∈ Sample.again, op.Within (Sample.program.setup (.callSite 1 1)) s := by
    simp only [Sample.again, List.forall_mem_cons, Rediscovery.Within]
    exact ⟨⟨List.cons_ne_nil _ _, hentry, hentry, fun _ h => absurd h List.not_mem_nil⟩, hreceive,
      trivial, hreach, hflow, hedge, trivial, fun _ h => absurd h List.not_mem_nil⟩
  obtain ⟨t, ht, hsame, -⟩ := replay_unmoved Sample.validate_program (.callSite 1 1) .lifo [0] 20 s hs
    Sample.again hops 30 (by decide)
  exact ⟨s, t, hs, ht, hsame⟩

end PointsTo.Solver
