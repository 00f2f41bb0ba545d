import PointsTo.Proofs.Sessions

/-!
# Selectors that agree

The solver asks its selector in four places: for the context of the entries, at a static call, at a call
on a receiver, and at an allocation. Each time it interns the answer, and nothing else that it does
touches the contexts and objects it knows (`Solver.Steady`).

So two selectors need not be the same function for their runs to be the same. It is enough that they give
the same answers about the contexts that come up, and that interning these answers brings up no others:
there is a property `I` of the known contexts and objects under which the selectors agree and which their
answers preserve (`Selector.Agree`). Then the two solvers stay in step through every rule
(`Solver.InStep`), hence through every session (`Solver.serve_eq_of_agree`).
-/

namespace PointsTo

/-- As long as the known contexts and objects have the property `I`, both selectors give the same
answers, and interning these preserves the property. -/
structure Selector.Agree (I : Interner Context → Interner CSObj → Prop) (σ τ : Selector) : Prop where
  entry : ∀ {C O}, I C O →
    σ.entryContext = τ.entryContext ∧ I (C.intern σ.entryContext).2 O
  static : ∀ {C O} {i : ContextId} {caller : Context} (site : Site) (callee : MethodId), I C O →
    C.get? i = some caller →
    σ.calleeContext caller site none callee = τ.calleeContext caller site none callee ∧
      I (C.intern (σ.calleeContext caller site none callee)).2 O
  receiver : ∀ {C O} {i : ContextId} {caller : Context} {j : CSObjId} {o : CSObj} {heap : Context}
    (site : Site) (object : AbstractObject) (callee : MethodId), I C O → C.get? i = some caller →
    O.get? j = some o → C.get? o.heapContext = some heap →
    σ.calleeContext caller site (some ⟨heap, object⟩) callee =
        τ.calleeContext caller site (some ⟨heap, object⟩) callee ∧
      I (C.intern (σ.calleeContext caller site (some ⟨heap, object⟩) callee)).2 O
  heap : ∀ {C O} {i : ContextId} {method : Context} (object : AbstractObject), I C O →
    C.get? i = some method →
    σ.heapContext method object = τ.heapContext method object ∧
      I (C.intern (σ.heapContext method object)).2
        (O.intern ⟨(C.intern (σ.heapContext method object)).1, object.id⟩).2

/-- The contexts and objects that the state knows have the property `I`. -/
def State.Under (I : Interner Context → Interner CSObj → Prop) (s : State) : Prop :=
  I s.arena.contexts s.arena.objects

namespace Solver

variable {α β : Type} {I : Interner Context → Interner CSObj → Prop}

/-! ## Actions that touch neither contexts nor objects -/

/-- Both states know the same contexts and the same objects. -/
def SameTables (s t : State) : Prop :=
  t.arena.contexts = s.arena.contexts ∧ t.arena.objects = s.arena.objects

/-- Whatever the state, the action leaves the known contexts and objects alone. -/
def Steady (x : SolveM α) : Prop := Respects (fun _ => SameTables) 0 x

theorem linkFrame_sameTables : LinkFrame fun _ => SameTables where
  refl _ := ⟨rfl, rfl⟩
  trans h h' := ⟨h'.1.trans h.1, h'.2.trans h.2⟩
  mono _ h := h
  arena _ _ _ _ hcontexts hobjects := ⟨hcontexts, hobjects⟩
  arrive _ _ _ := ⟨rfl, rfl⟩
  flow _ _ _ := ⟨rfl, rfl⟩
  call _ _ _ _ := ⟨rfl, rfl⟩

theorem Steady.bind {x : SolveM α} {f : α → SolveM β} (hx : Steady x) (hf : ∀ a, Steady (f a)) :
    Steady (x >>= f) :=
  Respects.bind linkFrame_sameTables hx fun a _ _ _ => hf a

theorem steady_methodId (m : CSMethod) : Steady (methodId m) :=
  respects_methodId linkFrame_sameTables m

theorem steady_siteId (x : CSSite) : Steady (siteId x) := respects_siteId linkFrame_sameTables x

theorem steady_pointerId (p : Pointer) : Steady (pointerId p) :=
  respects_pointerId linkFrame_sameTables p

theorem steady_arrive (i : PointerId) (objects : PointsToSet) : Steady (arrive i objects) :=
  respects_arrive linkFrame_sameTables i objects

theorem steady_connect (p q : Pointer) : Steady (connect p q) :=
  respects_connect linkFrame_sameTables p q

section

variable {setup : Setup}

theorem steady_connectCall (kind : EdgeKind) (i : CSSiteId) (j : CSMethodId) (c : Call) :
    Steady (connectCall setup kind i j c) :=
  respects_connectCall linkFrame_sameTables kind i j c

theorem steady_wireAccesses (c : ContextId) (v : VarId) (o : CSObjId) :
    Steady (wireAccesses setup c v o) := by
  have huses (flow : Stmt → Option (Pointer × Pointer)) (sites : List Site) :
      Steady (sites.forM (wireUse setup flow)) :=
    Respects.forM linkFrame_sameTables fun site _ => respects_wireUse linkFrame_sameTables flow site
  exact (huses _ _).bind fun _ => (huses _ _).bind fun _ => (huses _ _).bind fun _ => huses _ _

end

theorem steady_settle (a : Arrival) : Steady (settle a) := by
  intro s
  rw [after_of_ok (settle_ite s a)]
  split
  · exact ⟨rfl, rfl⟩
  · obtain ⟨w, hw, -⟩ := spread_eq s a.pointer (a.objects.diff (s.pointsTo a.pointer))
    rw [hw]
    exact ⟨rfl, rfl⟩

/-! ## In step -/

/-- From `s` both actions end in the same way, with the same answer or error and in the same state. What
that state knows has the property `I`. -/
def InStep (I : Interner Context → Interner CSObj → Prop) (x y : SolveM α) (s : State) : Prop :=
  x s = y s ∧ (after x s).Under I

section

variable {x y : SolveM α} {f g : α → SolveM β} {s t : State}

theorem Steady.inStep (h : Steady x) (hs : s.Under I) : InStep I x x s := by
  obtain ⟨hcontexts, hobjects⟩ := h s
  refine ⟨rfl, ?_⟩
  show I (after x s).arena.contexts (after x s).arena.objects
  rw [hcontexts, hobjects]
  exact hs

theorem InStep.pure (a : α) (hs : s.Under I) : InStep I (pure a) (pure a) s := ⟨rfl, hs⟩

theorem InStep.throw (e : AnalysisError) (hs : s.Under I) :
    InStep I (throw e : SolveM α) (throw e) s := ⟨rfl, hs⟩

theorem InStep.bind (hx : InStep I x y s)
    (hf : ∀ a t, x s = .ok a t → t.Under I → InStep I (f a) (g a) t) :
    InStep I (x >>= f) (y >>= g) s := by
  obtain ⟨hsame, hunder⟩ := hx
  cases h : x s with
  | error e t =>
    have hy : y s = .error e t := hsame ▸ h
    have hend : after (x >>= f) s = t := after_of_error (bind_of_error h)
    rw [after_of_error h] at hunder
    exact ⟨by rw [bind_of_error h, bind_of_error hy], by rwa [hend]⟩
  | ok a t =>
    have hy : y s = .ok a t := hsame ▸ h
    rw [after_of_ok h] at hunder
    obtain ⟨hrest, hunder'⟩ := hf a t h hunder
    exact ⟨by rw [bind_of_ok h, bind_of_ok hy, hrest], by rwa [after_bind h]⟩

theorem InStep.bind_of_eq {a : α} (hx : x s = .ok a t) (hy : y s = .ok a t)
    (hf : InStep I (f a) (g a) t) : InStep I (x >>= f) (y >>= g) s := by
  obtain ⟨hsame, hunder⟩ := hf
  exact ⟨by rw [bind_of_ok hx, bind_of_ok hy, hsame], by rwa [after_bind hx]⟩

/-- What a look-up finds is a fact about the state in which both go on. -/
theorem InStep.lookup {o : Option α} (hx : x s = known o s) (hs : s.Under I)
    (hf : ∀ a, o = some a → InStep I (f a) (g a) s) : InStep I (x >>= f) (x >>= g) s := by
  cases o with
  | none =>
    have herror : x s = .error .unknownId s := hx
    exact ⟨by rw [bind_of_error herror, bind_of_error herror],
      by rwa [after_of_error (bind_of_error herror)]⟩
  | some a => exact .bind_of_eq hx hx (hf a rfl)

theorem InStep.forM {xs : List α} {f g : α → SolveM Unit} (hs : s.Under I)
    (h : ∀ x ∈ xs, ∀ t, t.Under I → InStep I (f x) (g x) t) :
    InStep I (xs.forM f) (xs.forM g) s := by
  induction xs generalizing s with
  | nil => exact ⟨rfl, hs⟩
  | cons x xs ih =>
    refine (h x List.mem_cons_self s hs).bind fun _ t _ ht => ?_
    exact ih ht fun y hy => h y (List.mem_cons_of_mem x hy)

end

/-! ## The rules -/

section

variable {program : IndexedProgram} {heap : Heap} {σ τ : Selector} {s : State}
  (hA : Selector.Agree I σ τ)

include hA

theorem inStep_allocate (c : ContextId) (site : Site) (hs : s.Under I) :
    InStep I (allocate ⟨program, σ, heap⟩ c site) (allocate ⟨program, τ, heap⟩ c site) s := by
  unfold allocate
  cases heap.objectAt? site with
  | none => exact .throw _ hs
  | some object =>
    refine InStep.lookup rfl hs fun method hmethod => ?_
    -- the property need not hold in between, when the heap context is known and the object is not
    obtain ⟨hsame, hunder⟩ := hA.heap object hs hmethod
    dsimp only
    rw [← hsame]
    exact ⟨rfl, hunder⟩

theorem inStep_callStatic (c : ContextId) (site : Site) (d : Call) (hs : s.Under I) :
    InStep I (callStatic ⟨program, σ, heap⟩ c site d) (callStatic ⟨program, τ, heap⟩ c site d) s := by
  unfold callStatic
  cases program.resolveStatic d with
  | error e => exact .throw _ hs
  | ok callee =>
    refine InStep.lookup rfl hs fun caller hcaller => ?_
    obtain ⟨hsame, hunder⟩ := hA.static site callee hs hcaller
    dsimp only
    rw [← hsame]
    refine InStep.bind ⟨rfl, hunder⟩ fun _ t _ ht => ?_
    refine ((steady_methodId _).inStep ht).bind fun _ u _ hu => ?_
    exact ((steady_siteId _).inStep hu).bind fun _ v _ hv => (steady_connectCall _ _ _ _).inStep hv

theorem inStep_wire (c : ContextId) (site : Site) (stmt : Stmt) (hs : s.Under I) :
    InStep I (wire ⟨program, σ, heap⟩ c site stmt) (wire ⟨program, τ, heap⟩ c site stmt) s := by
  cases stmt with
  | new lhs ty =>
    refine (inStep_allocate hA c site hs).bind fun _ t _ ht => ?_
    exact ((steady_pointerId _).bind fun _ => steady_arrive _ _).inStep ht
  | copy | loadStatic | storeStatic => exact (steady_connect _ _).inStep hs
  | call d =>
    show InStep I (if d.isStatic then callStatic ⟨program, σ, heap⟩ c site d else pure ())
      (if d.isStatic then callStatic ⟨program, τ, heap⟩ c site d else pure ()) s
    split
    · exact inStep_callStatic hA c site d hs
    · exact .pure () hs
  | loadField | storeField | loadArray | storeArray => exact .pure () hs

theorem inStep_addReachable (j : CSMethodId) (hs : s.Under I) :
    InStep I (addReachable ⟨program, σ, heap⟩ j) (addReachable ⟨program, τ, heap⟩ j) s := by
  refine InStep.bind_of_eq get_eq get_eq ?_
  split
  · exact .pure () hs
  refine InStep.bind_of_eq modify_eq modify_eq ?_
  refine InStep.lookup rfl hs fun m _ => InStep.lookup rfl hs fun d _ => ?_
  exact InStep.forM hs fun _ _ t ht => inStep_wire hA _ _ _ ht

theorem inStep_callOn (c : ContextId) (receiver : CSObjId) (site : Site) (hs : s.Under I) :
    InStep I (callOn ⟨program, σ, heap⟩ c receiver site) (callOn ⟨program, τ, heap⟩ c receiver site)
      s := by
  refine InStep.lookup rfl hs fun stmt _ => ?_
  cases stmt with
  | call d =>
    refine InStep.lookup rfl hs fun recorded hrecorded => InStep.lookup rfl hs fun object _ => ?_
    dsimp only
    cases program.resolve? object.ty d with
    | none => exact ⟨rfl, hs⟩
    | some callee =>
      refine InStep.lookup rfl hs fun caller hcaller => ?_
      refine InStep.lookup rfl hs fun heapContext hheap => ?_
      -- nothing has been interned since the receiver was looked up, so this is its own heap context
      obtain ⟨hsame, hunder⟩ := hA.receiver site object callee hs hcaller hrecorded hheap
      rw [← hsame]
      refine InStep.bind ⟨rfl, hunder⟩ fun _ t _ ht => ?_
      refine ((steady_methodId _).inStep ht).bind fun _ u _ hu => ?_
      refine InStep.lookup rfl hu fun method _ => ?_
      split
      · exact .throw _ hu
      · refine ((steady_pointerId _).inStep hu).bind fun _ v _ hv => ?_
        refine ((steady_arrive _ _).inStep hv).bind fun _ w _ hw => ?_
        exact ((steady_siteId _).bind fun _ => steady_connectCall _ _ _ _).inStep hw
  | _ => exact .pure () hs

theorem inStep_meetObject (c : ContextId) (v : VarId) (o : CSObjId) (hs : s.Under I) :
    InStep I (meetObject ⟨program, σ, heap⟩ c v o) (meetObject ⟨program, τ, heap⟩ c v o) s := by
  refine ((steady_wireAccesses c v o).inStep hs).bind fun _ t _ ht => ?_
  exact InStep.forM ht fun _ _ u hu => inStep_callOn hA _ _ _ hu

theorem inStep_handle (a : Arrival) (hs : s.Under I) :
    InStep I (handle ⟨program, σ, heap⟩ a) (handle ⟨program, τ, heap⟩ a) s := by
  refine ((steady_settle a).inStep hs).bind fun fresh t _ ht => ?_
  refine InStep.bind_of_eq get_eq get_eq ?_
  split
  · exact InStep.forM ht fun _ _ u hu => inStep_meetObject hA _ _ _ hu
  · exact .pure () ht

/-! ## Runs and sessions -/

theorem inStep_advance (hs : s.Under I) :
    InStep I (advance ⟨program, σ, heap⟩) (advance ⟨program, τ, heap⟩) s := by
  refine InStep.bind_of_eq get_eq get_eq ?_
  cases s.pending.popFront with
  | some next =>
    have hs' : State.Under I { s with pending := next.2 } := hs
    refine InStep.bind_of_eq modify_eq modify_eq ?_
    exact (inStep_addReachable hA next.1 hs').bind fun _ t _ ht => .pure _ ht
  | none =>
    refine InStep.bind_of_eq get_eq get_eq ?_
    cases s.worklist.pop with
    | some next =>
      let u : State :=
        { s with worklist := next.2, stats := { s.stats with arrivals := s.stats.arrivals + 1 } }
      have hs' : u.Under I := hs
      refine InStep.bind_of_eq modify_eq modify_eq ?_
      exact (inStep_handle hA next.1 hs').bind fun _ t _ ht => .pure _ ht
    | none => exact .pure _ hs

theorem inStep_step (n : Nat) (hs : s.Under I) :
    InStep I (step ⟨program, σ, heap⟩ n) (step ⟨program, τ, heap⟩ n) s := by
  induction n generalizing s with
  | zero => exact .throw _ hs
  | succ n ih =>
    refine (inStep_advance hA hs).bind fun done t _ ht => ?_
    cases done with
    | wired => exact ih ht
    | handled | idle => exact .pure _ ht

theorem inStep_run (n : Nat) (hs : s.Under I) :
    InStep I (run ⟨program, σ, heap⟩ n) (run ⟨program, τ, heap⟩ n) s := by
  induction n generalizing s with
  | zero => exact .throw _ hs
  | succ n ih =>
    refine (inStep_advance hA hs).bind fun done t _ ht => ?_
    cases done with
    | wired | handled => exact ih ht
    | idle => exact .pure () ht

theorem inStep_seed (entries : List MethodId) (hs : s.Under I) :
    InStep I (seed ⟨program, σ, heap⟩ entries) (seed ⟨program, τ, heap⟩ entries) s := by
  unfold seed
  split
  · exact .throw _ hs
  obtain ⟨hsame, hunder⟩ := hA.entry hs
  dsimp only
  rw [← hsame]
  refine InStep.bind ⟨rfl, hunder⟩ fun _ t _ ht => InStep.forM ht fun _ _ u hu => ?_
  refine ((steady_methodId _).inStep hu).bind fun j v _ hv => ?_
  exact InStep.bind_of_eq modify_eq modify_eq (inStep_addReachable hA j hv)

theorem inStep_solve (n : Nat) (entries : List MethodId) (hs : s.Under I) :
    InStep I (solve ⟨program, σ, heap⟩ n entries) (solve ⟨program, τ, heap⟩ n entries) s :=
  (inStep_seed hA entries hs).bind fun _ _ _ ht => inStep_run hA n ht

theorem inStep_perform (r : Request) (hs : s.Under I) :
    InStep I (r.perform ⟨program, σ, heap⟩) (r.perform ⟨program, τ, heap⟩) s := by
  cases r with
  | seed batch => exact inStep_seed hA batch hs
  | step n => exact (inStep_step hA n hs).bind fun _ t _ ht => .pure _ ht
  | run n => exact inStep_run hA n hs

/-- Whatever is asked for, also after errors, the two sessions are the same. -/
theorem serve_eq_of_agree (order : WorklistOrder) (rs : List Request)
    (hstart : (State.initial order).Under I) :
    serve ⟨program, σ, heap⟩ order rs = serve ⟨program, τ, heap⟩ order rs ∧
      (serve ⟨program, σ, heap⟩ order rs).state.Under I := by
  induction rs using List.reverseRecOn with
  | nil =>
    have hnew : ∀ setup, serve setup order [] = ⟨.initial order, []⟩ := fun _ => rfl
    rw [hnew, hnew]
    exact ⟨rfl, hstart⟩
  | append_singleton rs r ih =>
    obtain ⟨hsame, hunder⟩ := ih
    rw [serve_concat, serve_concat, ← hsame]
    have hperform : InStep I (r.perform ⟨program, σ, heap⟩) (r.perform ⟨program, τ, heap⟩)
      (serve ⟨program, σ, heap⟩ order rs).state := inStep_perform hA r hunder
    obtain ⟨hresult, hkept⟩ := hperform
    unfold Session.ask
    rw [← hresult]
    unfold after at hkept
    split at hkept
    · rename_i h
      rw [h]
      exact ⟨rfl, hkept⟩
    · rename_i h
      rw [h]
      exact ⟨rfl, hkept⟩

end

end Solver

end PointsTo
