import Mathlib.Algebra.Order.BigOperators.Group.List
import Mathlib.Algebra.Order.Group.Nat
import PointsTo.Proofs.LeastSolution

/-!
# What the rules do to any state

A rule is built from a few primitive actions, each of which changes one part of the state and puts at
most one callee or arrival on the queues. A relation between states that these keep (`Frame`) is
therefore kept by every rule (`Respects`), in whatever state the rule is started and also when it fails
halfway. No invariant is needed, and how much is put on the queues can be read off the program
(`respects_addReachable`, `respects_meetObject`). The actions that only connect pointers and calls keep
more relations (`LinkFrame`).

The first such relation is `Adds n`: nothing found is lost, and at most `n` more things wait.
-/

namespace PointsTo

namespace Program

variable (p : Program)

/-- No call edge makes more wait than its callee and the arguments and results of all methods. -/
def linkWork : Nat := 1 + (p.methods.toList.map fun d => d.params.length + d.returns.length).sum

/-- No statement makes more wait than a call edge and a receiver. -/
def stmtWork : Nat := p.linkWork + 1

variable {p}

theorem mem_methods {m : MethodId} {d : MethodDecl} (h : p.method? m = some d) :
    d ∈ p.methods.toList := by
  rw [method?, ← Array.getElem?_toList] at h
  exact List.mem_of_getElem? h

theorem linkWork_ge {m : MethodId} {d : MethodDecl} (h : p.method? m = some d) :
    1 + (d.params.length + d.returns.length) ≤ p.linkWork := by
  have hmem : d.params.length + d.returns.length ∈
      p.methods.toList.map fun d => d.params.length + d.returns.length :=
    List.mem_map.2 ⟨d, mem_methods h, rfl⟩
  exact Nat.add_le_add_left (List.le_sum_of_mem hmem) 1

theorem length_body_le {m : MethodId} {d : MethodDecl} (h : p.method? m = some d) :
    d.body.length ≤ p.stmtCount := by
  rw [stmtCount, List.length_flatMap]
  exact List.le_sum_of_mem (List.mem_map.2 ⟨d, mem_methods h, rfl⟩)

theorem length_sitesWhere_le (test : Stmt → Bool) : (p.sitesWhere test).length ≤ p.stmtCount := by
  rw [sitesWhere, stmtCount, List.length_flatMap, List.length_flatMap]
  refine List.sum_le_sum fun d _ => ?_
  rw [List.length_map]
  refine (List.length_filter_le _ _).trans ?_
  rw [MethodDecl.sites, List.length_map, List.length_zipIdx]

end Program

namespace Solver

variable {α β : Type} {x : SolveM α} {f : α → SolveM β} {s t : State} {m n : Nat}

theorem after_of_ok {a : α} (h : x s = .ok a t) : after x s = t := by
  rw [after, h]

theorem after_of_error {e : AnalysisError} (h : x s = .error e t) : after x s = t := by
  rw [after, h]

theorem bind_of_ok {a : α} (h : x s = .ok a t) : (x >>= f) s = f a t := by
  show EStateM.bind x f s = _
  rw [EStateM.bind, h]

theorem bind_of_error {e : AnalysisError} (h : x s = .error e t) : (x >>= f) s = .error e t := by
  show EStateM.bind x f s = _
  rw [EStateM.bind, h]

/-- What an action leaves behind after another one that ends well. -/
theorem after_bind {a : α} (h : x s = .ok a t) : after (x >>= f) s = after (f a) t := by
  rw [after, after, bind_of_ok h]

theorem known_eq_ok {o : Option α} {a : α} (h : known o s = .ok a t) : o = some a := by
  cases o with
  | none => cases h
  | some b =>
    cases h
    rfl

/-- Relations between states, each with a bound on how many more things wait, that are kept by the
primitive actions of the rules. -/
structure Frame (R : Nat → State → State → Prop) : Prop where
  refl : ∀ s, R 0 s s
  trans : ∀ {m n s t u}, R m s t → R n t u → R (m + n) s u
  mono : ∀ {m n s t}, m ≤ n → R m s t → R n s t
  arena : ∀ (s : State) (b : Arena), s.arena.Grows b → (∀ i, b.pointsTo i = s.pointsTo i) →
    R 0 s { s with arena := b }
  arrive : ∀ (s : State) (i : PointerId) (objects : PointsToSet), R 1 s (s.arrive i objects)
  flow : ∀ (s : State) (i j : PointerId), R 0 s { s with flow := s.flow.addEdge i j }
  call : ∀ (s : State) (kind : EdgeKind) (i : CSSiteId) (j : CSMethodId), R 1 s (s.addCall kind i j)
  miss : ∀ s : State, R 0 s s.countMiss

/-- Relations that are kept by the primitive actions with which pointers and calls are connected. These
intern neither contexts nor objects. -/
structure LinkFrame (R : Nat → State → State → Prop) : Prop where
  refl : ∀ s, R 0 s s
  trans : ∀ {m n s t u}, R m s t → R n t u → R (m + n) s u
  mono : ∀ {m n s t}, m ≤ n → R m s t → R n s t
  arena : ∀ (s : State) (b : Arena), s.arena.Grows b → (∀ i, b.pointsTo i = s.pointsTo i) →
    b.contexts = s.arena.contexts → b.objects = s.arena.objects → R 0 s { s with arena := b }
  arrive : ∀ (s : State) (i : PointerId) (objects : PointsToSet), R 1 s (s.arrive i objects)
  flow : ∀ (s : State) (i j : PointerId), R 0 s { s with flow := s.flow.addEdge i j }
  call : ∀ (s : State) (kind : EdgeKind) (i : CSSiteId) (j : CSMethodId), R 1 s (s.addCall kind i j)

theorem Frame.linkFrame {R : Nat → State → State → Prop} (hR : Frame R) : LinkFrame R where
  refl := hR.refl
  trans := hR.trans
  mono := hR.mono
  arena s b hb hsets _ _ := hR.arena s b hb hsets
  arrive := hR.arrive
  flow := hR.flow
  call := hR.call

instance {R : Nat → State → State → Prop} : Coe (Frame R) (LinkFrame R) := ⟨Frame.linkFrame⟩

/-- The state that the action leaves behind is related to the one it is started in, whatever that is. -/
def Respects (R : Nat → State → State → Prop) (n : Nat) (x : SolveM α) : Prop :=
  ∀ s, R n s (after x s)

section

variable {R : Nat → State → State → Prop}

theorem Respects.ends (h : Respects R n x) (s : State) :
    Ends x s (fun _ t => R n s t) fun _ t => R n s t := by
  have hs := h s
  unfold Ends
  cases hx : x s with
  | ok a t => rwa [after_of_ok hx] at hs
  | error e t => rwa [after_of_error hx] at hs

section

variable (hR : LinkFrame R)

include hR

theorem Respects.mono (h : Respects R m x) (hle : m ≤ n) : Respects R n x :=
  fun s => hR.mono hle (h s)

/-- An action that leaves every state as it is keeps all relations. -/
theorem respects_of_after_eq (h : ∀ s, after x s = s) : Respects R n x := by
  intro s
  rw [h s]
  exact hR.mono (Nat.zero_le n) (hR.refl s)

theorem respects_pure (a : α) : Respects R n (pure a : SolveM α) :=
  respects_of_after_eq hR fun _ => rfl

theorem respects_throw (e : AnalysisError) : Respects R n (throw e : SolveM α) :=
  respects_of_after_eq hR fun _ => rfl

theorem respects_get : Respects R n (get : SolveM State) := respects_of_after_eq hR fun _ => rfl

theorem respects_known (o : Option α) : Respects R n (known o) := by
  cases o with
  | none => exact respects_throw hR _
  | some a => exact respects_pure hR a

/-- What comes second adds to what comes first has added, if it is reached. -/
theorem Respects.bind (hx : Respects R m x) (hf : ∀ a s t, x s = .ok a t → Respects R n (f a)) :
    Respects R (m + n) (x >>= f) := by
  intro s
  have hs := hx s
  cases h : x s with
  | error e t =>
    -- what the first action did before it failed stays
    rw [after_of_error h] at hs
    rw [after_of_error (bind_of_error h)]
    exact hR.mono (Nat.le_add_right m n) hs
  | ok a t =>
    rw [after_of_ok h] at hs
    rw [after_bind h]
    exact hR.trans hs (hf a s t h t)

/-- What only looks something up adds nothing. The continuation is bounded only for what the first
action can return, such as a method of the program. -/
theorem Respects.bind_zero (hx : Respects R 0 x) (hf : ∀ a s t, x s = .ok a t → Respects R n (f a)) :
    Respects R n (x >>= f) :=
  Nat.zero_add n ▸ hx.bind hR hf

theorem Respects.forM {xs : List α} {g : α → SolveM Unit} (h : ∀ x ∈ xs, Respects R n (g x)) :
    Respects R (xs.length * n) (xs.forM g) := by
  induction xs with
  | nil => exact respects_pure hR ()
  | cons x xs ih =>
    have hrest : Respects R (xs.length * n) (xs.forM g) :=
      ih fun y hy => h y (List.mem_cons_of_mem x hy)
    rw [List.length_cons, Nat.succ_mul, Nat.add_comm]
    exact (h x List.mem_cons_self).bind hR fun _ _ _ _ => hrest

/-! ## Primitive actions -/

/-- An interning that leaves contexts and objects alone. -/
theorem respects_intern {op : Arena → Nat × Arena} (h : ∀ a : Arena, a.Grows (op a).2)
    (hsets : ∀ (a : Arena) (i : PointerId), (op a).2.pointsTo i = a.pointsTo i)
    (hcontexts : ∀ a : Arena, (op a).2.contexts = a.contexts)
    (hobjects : ∀ a : Arena, (op a).2.objects = a.objects) : Respects R 0 (intern op) :=
  fun s => hR.arena s _ (h s.arena) (hsets s.arena) (hcontexts s.arena) (hobjects s.arena)

theorem respects_methodId (m : CSMethod) : Respects R 0 (methodId m) :=
  respects_intern hR (fun a =>
    { Arena.Grows.refl a with methods := fun _ _ h => Interner.get?_intern_of_some h })
    (fun _ _ => rfl) (fun _ => rfl) fun _ => rfl

theorem respects_siteId (x : CSSite) : Respects R 0 (siteId x) :=
  respects_intern hR (fun a =>
    { Arena.Grows.refl a with sites := fun _ _ h => Interner.get?_intern_of_some h })
    (fun _ _ => rfl) (fun _ => rfl) fun _ => rfl

theorem respects_pointerId (p : Pointer) : Respects R 0 (pointerId p) := by
  have htables (a : Arena) := a.internPointer_eq p
  exact respects_intern hR (fun a => a.grows_internPointer p)
    (fun _ _ => Arena.pointsTo_internPointer) (fun a => (htables a).2.2.1) fun a => (htables a).2.2.2.1

theorem respects_contextOf (c : ContextId) : Respects R n (contextOf c) :=
  fun s => respects_known hR _ s

theorem respects_objectOf (o : CSObjId) : Respects R n (objectOf o) :=
  fun s => respects_known hR _ s

theorem respects_methodOf (m : CSMethodId) : Respects R n (methodOf m) :=
  fun s => respects_known hR _ s

theorem respects_siteOf (x : CSSiteId) : Respects R n (siteOf x) :=
  fun s => respects_known hR _ s

theorem respects_arrive (i : PointerId) (objects : PointsToSet) : Respects R 1 (arrive i objects) :=
  fun s => hR.arrive s i objects

theorem respects_addFlow (i j : PointerId) : Respects R 1 (addFlow i j) := by
  intro s
  show R 1 s (s.addFlow i j)
  unfold State.addFlow
  split
  · exact hR.mono (Nat.zero_le 1) (hR.refl s)
  · split
    · exact hR.mono (Nat.zero_le 1) (hR.flow s i j)
    · exact hR.trans (hR.flow s i j) (hR.arrive _ _ _)

theorem respects_connect (p q : Pointer) : Respects R 1 (connect p q) :=
  (respects_pointerId hR p).bind_zero hR fun _ _ _ _ =>
    (respects_pointerId hR q).bind_zero hR fun _ _ _ _ => respects_addFlow hR _ _

/-! ## Connecting pointers and calls -/

variable {setup : Setup}

theorem respects_connectCall (kind : EdgeKind) (i : CSSiteId) (j : CSMethodId) (c : Call) :
    Respects R setup.program.linkWork (connectCall setup kind i j c) := by
  refine (respects_get hR).bind_zero hR fun s _ _ _ => ?_
  split
  · exact respects_pure hR ()
  refine (respects_siteOf hR i).bind_zero hR fun caller _ _ _ => ?_
  refine (respects_methodOf hR j).bind_zero hR fun target _ _ _ => ?_
  refine (respects_known hR _).bind_zero hR fun method _ _ hmethod => ?_
  split
  · exact respects_throw hR _
  -- the callee, then one arrival for each argument and for each result
  have hle : 1 + ((c.args.zip method.params).length * 1 + method.returns.length * 1) ≤
      setup.program.linkWork := by
    have hzip : (c.args.zip method.params).length ≤ method.params.length := by
      rw [List.length_zip]
      exact Nat.min_le_right _ _
    have hlink := Program.linkWork_ge (known_eq_ok hmethod)
    omega
  have hcall : Respects R 1 (modify (·.addCall kind i j)) := fun s => hR.call s kind i j
  refine Respects.mono hR (hcall.bind hR fun _ _ _ _ => ?_) hle
  refine Respects.bind hR (Respects.forM hR fun _ _ => respects_connect hR _ _) fun _ _ _ _ => ?_
  split
  · exact respects_pure hR ()
  · refine (respects_pointerId hR _).bind_zero hR fun _ _ _ _ => Respects.forM hR fun _ _ => ?_
    exact (respects_pointerId hR _).bind_zero hR fun _ _ _ _ => respects_addFlow hR _ _

theorem respects_wireUse (flow : Stmt → Option (Pointer × Pointer)) (site : Site) :
    Respects R 1 (wireUse setup flow site) := by
  refine (respects_known hR _).bind_zero hR fun stmt _ _ _ => ?_
  split
  · exact respects_connect hR _ _
  · exact respects_pure hR ()

end

/-! ## The rules -/

section

variable (hR : Frame R) {setup : Setup}

include hR

theorem respects_contextId (c : Context) : Respects R 0 (contextId c) :=
  fun s => hR.arena s _ (s.arena.interns_internContext c).grows fun _ => rfl

theorem respects_objectId (o : CSObj) : Respects R 0 (objectId o) :=
  fun s => hR.arena s _ { Arena.Grows.refl s.arena with
    objects := fun _ _ h => Interner.get?_intern_of_some h } fun _ => rfl

theorem respects_allocate (c : ContextId) (site : Site) : Respects R 0 (allocate setup c site) := by
  unfold allocate
  split
  · exact respects_throw hR _
  · refine (respects_contextOf hR c).bind_zero hR fun _ _ _ _ => ?_
    exact (respects_contextId hR _).bind_zero hR fun _ _ _ _ => respects_objectId hR _

theorem respects_callStatic (c : ContextId) (site : Site) (d : Call) :
    Respects R setup.program.linkWork (callStatic setup c site d) := by
  unfold callStatic
  split
  · exact respects_throw hR _
  · refine (respects_contextOf hR c).bind_zero hR fun _ _ _ _ => ?_
    refine (respects_contextId hR _).bind_zero hR fun _ _ _ _ => ?_
    refine (respects_methodId hR _).bind_zero hR fun _ _ _ _ => ?_
    exact (respects_siteId hR _).bind_zero hR fun _ _ _ _ => respects_connectCall hR _ _ _ _

theorem respects_wire (c : ContextId) (site : Site) (stmt : Stmt) :
    Respects R setup.program.stmtWork (wire setup c site stmt) := by
  have hone : 1 ≤ setup.program.stmtWork := Nat.succ_pos _
  cases stmt with
  | new lhs ty =>
    refine (respects_allocate hR c site).bind_zero hR fun _ _ _ _ => ?_
    refine (respects_pointerId hR _).bind_zero hR fun _ _ _ _ => ?_
    exact (respects_arrive hR _ _).mono hR hone
  | copy lhs rhs => exact (respects_connect hR _ _).mono hR hone
  | loadStatic lhs f => exact (respects_connect hR _ _).mono hR hone
  | storeStatic f rhs => exact (respects_connect hR _ _).mono hR hone
  | call d =>
    show Respects R _ (if d.isStatic then callStatic setup c site d else pure ())
    split
    · exact (respects_callStatic hR c site d).mono hR (Nat.le_succ _)
    · exact respects_pure hR ()
  | loadField | storeField | loadArray | storeArray => exact respects_pure hR ()

theorem respects_wireBody (j : CSMethodId) :
    Respects R (setup.program.stmtCount * setup.program.stmtWork) (wireBody setup j) := by
  refine (respects_methodOf hR j).bind_zero hR fun method _ _ _ => ?_
  refine (respects_known hR _).bind_zero hR fun d _ _ hd => ?_
  have hlen : d.body.zipIdx.length ≤ setup.program.stmtCount := by
    rw [List.length_zipIdx]
    exact Program.length_body_le (known_eq_ok hd)
  exact Respects.mono hR (Respects.forM hR fun _ _ => respects_wire hR _ _ _)
    (Nat.mul_le_mul_right _ hlen)

/-- Making a method reachable makes no more wait than all statements of the program. -/
theorem respects_addReachable
    (hreach : ∀ s j, R 0 s { s with callGraph := s.callGraph.addReachable j }) (j : CSMethodId) :
    Respects R (setup.program.stmtCount * setup.program.stmtWork) (addReachable setup j) := by
  refine (respects_get hR).bind_zero hR fun s _ _ _ => ?_
  split
  · exact respects_pure hR ()
  have hlist : Respects R 0 (modify fun s => { s with callGraph := s.callGraph.addReachable j }) :=
    fun s => hreach s j
  exact hlist.bind_zero hR fun _ _ _ _ => respects_wireBody hR j

theorem respects_callOn (c : ContextId) (receiver : CSObjId) (site : Site) :
    Respects R setup.program.stmtWork (callOn setup c receiver site) := by
  refine (respects_known hR _).bind_zero hR fun stmt _ _ _ => ?_
  split
  · refine (respects_objectOf hR receiver).bind_zero hR fun recorded _ _ _ => ?_
    refine (respects_known hR _).bind_zero hR fun object _ _ _ => ?_
    split
    · exact fun s => hR.mono (Nat.zero_le _) (hR.miss s)
    refine (respects_contextOf hR c).bind_zero hR fun _ _ _ _ => ?_
    refine (respects_contextOf hR _).bind_zero hR fun _ _ _ _ => ?_
    refine (respects_contextId hR _).bind_zero hR fun _ _ _ _ => ?_
    refine (respects_methodId hR _).bind_zero hR fun _ _ _ _ => ?_
    refine (respects_known hR _).bind_zero hR fun method _ _ _ => ?_
    split
    · exact respects_throw hR _
    refine (respects_pointerId hR _).bind_zero hR fun _ _ _ _ => ?_
    rw [Program.stmtWork, Nat.add_comm]
    refine (respects_arrive hR _ _).bind hR fun _ _ _ _ => ?_
    exact (respects_siteId hR _).bind_zero hR fun _ _ _ _ => respects_connectCall hR _ _ _ _
  · exact respects_pure hR ()

omit hR in
/-- The uses of a variable are statements of the program, in each of the five lists. -/
theorem length_uses_le (hset : setup.WellFormed) (v : VarId) :
    (setup.program.uses v).storeFields.length ≤ setup.program.stmtCount ∧
    (setup.program.uses v).loadFields.length ≤ setup.program.stmtCount ∧
    (setup.program.uses v).storeArrays.length ≤ setup.program.stmtCount ∧
    (setup.program.uses v).loadArrays.length ≤ setup.program.stmtCount ∧
    (setup.program.uses v).calls.length ≤ setup.program.stmtCount := by
  rw [hset.uses_eq]
  split
  · simp only [Program.usesOf]
    exact ⟨Program.length_sitesWhere_le _, Program.length_sitesWhere_le _,
      Program.length_sitesWhere_le _, Program.length_sitesWhere_le _, Program.length_sitesWhere_le _⟩
  · exact ⟨Nat.zero_le _, Nat.zero_le _, Nat.zero_le _, Nat.zero_le _, Nat.zero_le _⟩

theorem respects_callsOn (hset : setup.WellFormed) (c : ContextId) (v : VarId) (o : CSObjId) :
    Respects R (setup.program.stmtCount * setup.program.stmtWork) (callsOn setup c v o) := by
  obtain ⟨-, -, -, -, hcalls⟩ := length_uses_le hset v
  exact Respects.mono hR (Respects.forM hR fun _ _ => respects_callOn hR c o _)
    (Nat.mul_le_mul_right _ hcalls)

/-- Meeting an object makes no more wait than five times all statements of the program. -/
theorem respects_meetObject (hset : setup.WellFormed) (c : ContextId) (v : VarId) (o : CSObjId) :
    Respects R (5 * (setup.program.stmtCount * setup.program.stmtWork)) (meetObject setup c v o) := by
  obtain ⟨hsf, hlf, hsa, hla, -⟩ := length_uses_le hset v
  have huses {flow : Stmt → Option (Pointer × Pointer)} {sites : List Site}
      (h : sites.length ≤ setup.program.stmtCount) :
      Respects R (setup.program.stmtCount * setup.program.stmtWork)
        (sites.forM (wireUse setup flow)) := by
    refine Respects.mono hR (Respects.forM hR fun site _ => ?_) (Nat.mul_le_mul_right _ h)
    exact (respects_wireUse hR flow site).mono hR (Nat.succ_pos _)
  have haccesses : Respects R (setup.program.stmtCount * setup.program.stmtWork +
      (setup.program.stmtCount * setup.program.stmtWork +
      (setup.program.stmtCount * setup.program.stmtWork +
      setup.program.stmtCount * setup.program.stmtWork))) (wireAccesses setup c v o) :=
    (huses hsf).bind hR fun _ _ _ _ => (huses hlf).bind hR fun _ _ _ _ =>
      (huses hsa).bind hR fun _ _ _ _ => huses hla
  refine Respects.mono hR (haccesses.bind hR fun _ _ _ _ => respects_callsOn hR hset c v o) ?_
  omega

theorem respects_meetAll (hset : setup.WellFormed) (i : PointerId) (xs : List CSObjId) :
    Respects R (xs.length * (5 * (setup.program.stmtCount * setup.program.stmtWork)))
      (meetAll setup i xs) := by
  refine (respects_get hR).bind_zero hR fun _ _ _ _ => ?_
  split
  · exact Respects.forM hR fun _ _ => respects_meetObject hR hset _ _ _
  · exact respects_pure hR ()

end

end

/-! ## Whole runs -/

/-- A relation that is also kept by what a run does besides its rules. -/
structure RunFrame (R : State → State → Prop) : Prop extends Frame fun _ => R where
  reach : ∀ (s : State) (j : CSMethodId), R s { s with callGraph := s.callGraph.addReachable j }
  spread : ∀ (s : State) (i : PointerId) (fresh : PointsToSet), R s (s.spread i fresh)
  pending : ∀ (s : State) (pending : Deque CSMethodId), R s { s with pending }
  worklist : ∀ (s : State) (worklist : Worklist),
    R s { s with worklist, stats := { s.stats with arrivals := s.stats.arrivals + 1 } }

section

variable {R : State → State → Prop} (hR : RunFrame R) {setup : Setup}

include hR

theorem respects_settle (a : Arrival) : Respects (fun _ => R) 0 (settle a) := by
  refine (respects_get hR.toFrame).bind_zero hR.toFrame fun s _ _ _ => ?_
  generalize a.objects.diff (s.pointsTo a.pointer) = fresh
  show Respects _ 0 (if fresh.isEmpty then pure fresh else do
    modify (·.spread a.pointer fresh)
    pure fresh)
  split
  · exact respects_pure hR.toFrame _
  · have hspread : Respects (fun _ => R) 0 (modify (·.spread a.pointer fresh) : SolveM Unit) :=
      fun t => hR.spread t _ _
    exact hspread.bind_zero hR.toFrame fun _ _ _ _ => respects_pure hR.toFrame _

theorem respects_handle (hset : setup.WellFormed) (a : Arrival) :
    Respects (fun _ => R) 0 (handle setup a) :=
  (respects_settle hR a).bind_zero hR.toFrame fun fresh _ _ _ =>
    respects_meetAll hR.toFrame hset a.pointer fresh.toList

theorem respects_advance (hset : setup.WellFormed) :
    Respects (fun _ => R) 0 (advance setup) := by
  refine (respects_get hR.toFrame).bind_zero hR.toFrame fun s _ _ _ => ?_
  split
  · rename_i j pending _
    have htake : Respects (fun _ => R) 0 (modify ({ · with pending }) : SolveM Unit) :=
      fun t => hR.pending t pending
    refine htake.bind_zero hR.toFrame fun _ _ _ _ => ?_
    have hwired : Respects (fun _ => R) 0 (addReachable setup j) :=
      respects_addReachable hR.toFrame hR.reach j
    exact hwired.bind_zero hR.toFrame fun _ _ _ _ => respects_pure hR.toFrame _
  · refine (respects_get hR.toFrame).bind_zero hR.toFrame fun s _ _ _ => ?_
    split
    · rename_i a worklist _
      have htake : Respects (fun _ => R) 0 (modify fun s => { s with
          worklist, stats := { s.stats with arrivals := s.stats.arrivals + 1 } } : SolveM Unit) :=
        fun t => hR.worklist t worklist
      refine htake.bind_zero hR.toFrame fun _ _ _ _ => ?_
      exact (respects_handle hR hset a).bind_zero hR.toFrame fun _ _ _ _ =>
        respects_pure hR.toFrame _
    · exact respects_pure hR.toFrame _

theorem respects_step (hset : setup.WellFormed) (n : Nat) :
    Respects (fun _ => R) 0 (step setup n) := by
  induction n with
  | zero => exact respects_throw hR.toFrame _
  | succ n ih =>
    refine (respects_advance hR hset).bind_zero hR.toFrame fun done _ _ _ => ?_
    cases done with
    | wired => exact ih
    | handled | idle => exact respects_pure hR.toFrame _

theorem respects_run (hset : setup.WellFormed) (n : Nat) :
    Respects (fun _ => R) 0 (run setup n) := by
  induction n with
  | zero => exact respects_throw hR.toFrame _
  | succ n ih =>
    refine (respects_advance hR hset).bind_zero hR.toFrame fun done _ _ _ => ?_
    cases done with
    | wired | handled => exact ih
    | idle => exact respects_pure hR.toFrame _

end

/-- Seeding lists entries and makes them reachable; both must keep the relation. -/
theorem respects_seed {R : State → State → Prop} (hR : Frame fun _ => R)
    (hreach : ∀ s j, R s { s with callGraph := s.callGraph.addReachable j })
    (henter : ∀ s j, R s (enter s j)) {setup : Setup} (entries : List MethodId) :
    Respects (fun _ => R) 0 (seed setup entries) := by
  have hentry (k : ContextId) (n : MethodId) : Respects (fun _ => R) 0 (seedEntry setup k n) := by
    refine (respects_methodId hR _).bind_zero hR fun j _ _ _ => ?_
    have hlist : Respects (fun _ => R) 0
        (modify fun s => { s with callGraph := s.callGraph.addEntry j }) := fun s => henter s j
    refine hlist.bind_zero hR fun _ _ _ _ => ?_
    exact respects_addReachable hR hreach j
  unfold seed
  split
  · exact respects_throw hR _
  · refine (respects_contextId hR _).bind_zero hR fun k _ _ _ => ?_
    have hall : Respects (fun _ => R) 0 (entries.forM (seedEntry setup k)) :=
      Respects.forM hR fun n _ => hentry k n
    exact hall

/-! ## What is put on the queues -/

/-- Nothing found is lost, and at most `n` more things wait. -/
def Adds (n : Nat) (s t : State) : Prop := s.Grows t ∧ todo t ≤ todo s + n

theorem todo_arrive (i : PointerId) (objects : PointsToSet) :
    todo (s.arrive i objects) = todo s + 1 := by
  show s.pending.toList.length + (s.worklist.push _).toList.length = _
  rw [Worklist.toList_push, List.length_append, List.length_singleton, todo, Nat.add_assoc]

theorem adds_addCall (kind : EdgeKind) (i : CSSiteId) (j : CSMethodId) :
    Adds 1 s (s.addCall kind i j) := by
  refine ⟨?_, ?_⟩
  · have hedges : s.callGraph.edges <+: (s.callGraph.addEdge ⟨kind, i, j⟩).edges ∧
        s.callGraph.entries <+: (s.callGraph.addEdge ⟨kind, i, j⟩).entries ∧
        s.callGraph.reachable <+: (s.callGraph.addEdge ⟨kind, i, j⟩).reachable := by
      rw [CallGraph.addEdge_eq]
      split
      · exact ⟨List.prefix_rfl, List.prefix_rfl, List.prefix_rfl⟩
      · exact ⟨List.prefix_append _ _, List.prefix_rfl, List.prefix_rfl⟩
    exact { State.Grows.refl s with
      edges := hedges.1, entries := hedges.2.1, reachable := hedges.2.2 }
  · show (s.pending.push j).toList.length + s.worklist.toList.length ≤ _
    rw [Deque.toList_push, List.length_append, List.length_singleton, todo]
    omega

theorem frame_adds : Frame Adds where
  refl s := ⟨.refl s, Nat.le_refl _⟩
  trans h h' := by
    obtain ⟨hgrows, htodo⟩ := h
    obtain ⟨hgrows', htodo'⟩ := h'
    exact ⟨hgrows.trans hgrows', by omega⟩
  mono hle h := ⟨h.1, h.2.trans (Nat.add_le_add_left hle _)⟩
  arena s _ hb _ := ⟨{ State.Grows.refl s with arena := hb }, Nat.le_refl _⟩
  arrive s i objects := ⟨{ State.Grows.refl s with }, Nat.le_of_eq (todo_arrive i objects)⟩
  flow s i j := ⟨{ State.Grows.refl s with flow := s.flow.successors_prefix_addEdge i j },
    Nat.le_refl _⟩
  call _ := adds_addCall
  miss s := ⟨{ State.Grows.refl s with dispatchMisses := Nat.le_succ _ }, Nat.le_refl _⟩

theorem adds_reach (s : State) (j : CSMethodId) :
    Adds 0 s { s with callGraph := s.callGraph.addReachable j } := by
  refine ⟨?_, Nat.le_refl _⟩
  by_cases h : j ∈ s.callGraph.reachable
  · rw [CallGraph.addReachable_eq, if_pos h]
    exact { State.Grows.refl s with }
  · rw [addReachable_eq h]
    exact grows_reach

end Solver

end PointsTo
