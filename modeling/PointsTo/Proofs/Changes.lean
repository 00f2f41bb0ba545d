import Mathlib.Logic.Relation
import PointsTo.Proofs.Propagation

/-!
# What a step changes

A rule works for one method under one context: that of the statement it wires, or of the variable that
has met an object. Apart from pointers that are not of variables it touches the variables of that
method, and of the callee where it calls one. So whatever rules do is a sequence of a few changes
(`Change`): flow edges and arrivals are added (`Joins`), or a call edge is added and installed whole
(`Installs`), or one is met again. Every invariant of the rules can be read off these.

An action that fails has made the same changes as one that succeeds, except that an object may wait at
the receiver of a call that could not be installed. `Moves` leaves the worklist out where an action
fails.
-/

namespace PointsTo

/-- The method in which a call site stands, under the context of the site. -/
def CSSite.caller (x : CSSite) : CSMethod := ⟨x.context, x.site.method⟩

/-- A variable is one of the method, under the method's context. -/
def Pointer.Within (p : Program) (m : CSMethod) : Pointer → Prop
  | .var c v => c = m.context ∧ ∃ x, p.var? v = some x ∧ x.method = m.method
  | .instanceField .. | .staticField _ | .arraySlots _ => True

namespace State

/-- The id is one of a pointer of this kind. -/
def At (s : State) (P : Pointer → Prop) (i : PointerId) : Prop :=
  ∃ q, s.arena.pointers.get? i = some q ∧ P q

/-- There is a flow edge between the two pointers. -/
def FlowsTo (s : State) (p q : Pointer) : Prop :=
  ∃ i j, s.arena.pointers.get? i = some p ∧ s.arena.pointers.get? j = some q ∧
    j ∈ s.flow.successors i

/-- The call `d` at the site `x` is connected with the method `m`: each argument with its parameter, and
each return variable with the result. -/
structure Installs (setup : Setup) (s : State) (e : CallEdge CSSiteId CSMethodId) (x : CSSite)
    (m : CSMethod) (d : Call) (decl : MethodDecl) : Prop where
  site : s.arena.sites.get? e.site = some x
  callee : s.arena.methods.get? e.callee = some m
  stmt : setup.program.stmt? x.site = some (.call d)
  method : setup.program.method? m.method = some decl
  arity : d.args.length = decl.params.length
  args : ∀ (n : Nat) (a b : VarId), d.args[n]? = some a → decl.params[n]? = some b →
    s.FlowsTo (.var x.context a) (.var m.context b)
  results : ∀ r ∈ d.result, ∀ ret ∈ decl.returns,
    s.FlowsTo (.var m.context ret) (.var x.context r)

/-- The edge is one of a call statement, and installed whole. -/
def Installed (setup : Setup) (s : State) (e : CallEdge CSSiteId CSMethodId) : Prop :=
  ∃ x m d decl, s.Installs setup e x m d decl

variable {s t u : State} {setup : Setup} {e : CallEdge CSSiteId CSMethodId}

theorem At.mono {P Q : Pointer → Prop} {i : PointerId} (h : s.At P i)
    (ha : s.arena.Grows t.arena) (hPQ : ∀ q, P q → Q q) : t.At Q i := by
  obtain ⟨q, hq, hP⟩ := h
  exact ⟨q, ha.pointers i q hq, hPQ q hP⟩

theorem FlowsTo.mono {p q : Pointer} (h : s.FlowsTo p q) (ht : s.Grows t) : t.FlowsTo p q := by
  obtain ⟨i, j, hi, hj, hedge⟩ := h
  exact ⟨i, j, ht.arena.pointers i p hi, ht.arena.pointers j q hj, (ht.flow i).subset hedge⟩

theorem Installed.mono (h : s.Installed setup e) (ht : s.Grows t) : t.Installed setup e := by
  obtain ⟨x, m, d, decl, h⟩ := h
  exact ⟨x, m, d, decl, {
    site := ht.arena.sites _ _ h.site
    callee := ht.arena.methods _ _ h.callee
    stmt := h.stmt
    method := h.method
    arity := h.arity
    args := fun n a b ha hb => (h.args n a b ha hb).mono ht
    results := fun r hr ret hret => (h.results r hr ret hret).mono ht }⟩

end State

namespace Solver

variable {setup : Setup} {s t u : State} {m : CSMethod} {P Q : Pointer → Prop}

/-! ## Flow edges and arrivals -/

/-- Flow edges are added between pointers of the kind `P`, and objects arrive at some. What they point to
has not changed. -/
structure Links (P : Pointer → Prop) (s t : State) : Prop where
  grows : s.Grows t
  pointsTo : ∀ i, t.pointsTo i = s.pointsTo i
  flow : ∀ i j, j ∈ t.flow.successors i → j ∈ s.flow.successors i ∨ t.At P i ∧ t.At P j
  arrivals : ∀ a ∈ t.worklist.toList, a ∈ s.worklist.toList ∨ t.At P a.pointer

/-- Moreover nothing is called. -/
structure Joins (P : Pointer → Prop) (s t : State) : Prop extends Links P s t where
  callGraph : t.callGraph = s.callGraph
  pending : t.pending = s.pending

theorem Links.trans (h : Links P s t) (h' : Links P t u) : Links P s u where
  grows := h.grows.trans h'.grows
  pointsTo i := (h'.pointsTo i).trans (h.pointsTo i)
  flow i j hj := by
    rcases h'.flow i j hj with hj | hnew
    · rcases h.flow i j hj with hj | ⟨hi, hj⟩
      · exact Or.inl hj
      · have hgrows := h'.grows.arena
        exact Or.inr ⟨hi.mono hgrows fun _ hq => hq, hj.mono hgrows fun _ hq => hq⟩
    · exact Or.inr hnew
  arrivals a ha := by
    rcases h'.arrivals a ha with ha | hnew
    · exact (h.arrivals a ha).imp id fun hat => hat.mono h'.grows.arena fun _ hq => hq
    · exact Or.inr hnew

theorem Links.mono (h : Links P s t) (hPQ : ∀ q, P q → Q q) : Links Q s t :=
  have hat {i : PointerId} (hi : t.At P i) : t.At Q i := hi.mono (.refl _) hPQ
  { h with
    flow := fun i j hj => (h.flow i j hj).imp id (And.imp hat hat)
    arrivals := fun a ha => (h.arrivals a ha).imp id hat }

namespace Joins

theorem refl (s : State) : Joins P s s :=
  ⟨⟨.refl s, fun _ => rfl, fun _ _ h => Or.inl h, fun _ h => Or.inl h⟩, rfl, rfl⟩

theorem trans (h : Joins P s t) (h' : Joins P t u) : Joins P s u :=
  ⟨h.toLinks.trans h'.toLinks, h'.callGraph.trans h.callGraph, h'.pending.trans h.pending⟩

theorem mono (h : Joins P s t) (hPQ : ∀ q, P q → Q q) : Joins Q s t :=
  ⟨h.toLinks.mono hPQ, h.callGraph, h.pending⟩

end Joins

/-- Interning adds neither edges nor arrivals. -/
theorem joins_arena {b : Arena} (hb : s.arena.Grows b) (hsets : ∀ i, b.pointsTo i = s.pointsTo i) :
    Joins P s { s with arena := b } :=
  ⟨⟨{ State.Grows.refl s with arena := hb }, hsets, fun _ _ h => Or.inl h, fun _ h => Or.inl h⟩,
    rfl, rfl⟩

theorem joins_arrive {i : PointerId} (hi : s.At P i) (objects : PointsToSet) :
    Joins P s (s.arrive i objects) := by
  refine ⟨⟨{ State.Grows.refl s with }, fun _ => rfl, fun _ _ h => Or.inl h, ?_⟩, rfl, rfl⟩
  intro a ha
  have ha : a ∈ (s.worklist.push ⟨i, objects⟩).toList := ha
  rw [Worklist.toList_push, List.mem_append, List.mem_singleton] at ha
  rcases ha with ha | rfl
  · exact Or.inl ha
  · exact Or.inr hi

theorem joins_addFlow {i j : PointerId} (hi : s.At P i) (hj : s.At P j) :
    Joins P s (s.addFlow i j) := by
  have hedge : Joins P s { s with flow := s.flow.addEdge i j } := by
    refine ⟨⟨{ State.Grows.refl s with flow := s.flow.successors_prefix_addEdge i j },
      fun _ => rfl, ?_, fun _ h => Or.inl h⟩, rfl, rfl⟩
    intro k l hl
    rcases FlowGraph.of_mem_successors_addEdge hl with hl | ⟨rfl, rfl⟩
    · exact Or.inl hl
    · exact Or.inr ⟨hi, hj⟩
  unfold State.addFlow
  split
  · exact .refl s
  · split
    · exact hedge
    · exact hedge.trans (joins_arrive (s := { s with flow := s.flow.addEdge i j }) hj _)

theorem joins_countMiss : Joins P s s.countMiss :=
  ⟨⟨{ State.Grows.refl s with dispatchMisses := Nat.le_succ _ }, fun _ => rfl,
    fun _ _ h => Or.inl h, fun _ h => Or.inl h⟩, rfl, rfl⟩

theorem links_addCall (kind : EdgeKind) (i : CSSiteId) (j : CSMethodId) :
    Links P s (s.addCall kind i j) :=
  ⟨(adds_addCall kind i j).1, fun _ => rfl, fun _ _ h => Or.inl h, fun _ h => Or.inl h⟩

/-! ## Actions that only add -/

theorem exists_context (c : Context) (s : State) : ∃ k t, contextId c s = .ok k t ∧ Joins P s t :=
  ⟨_, _, rfl, joins_arena (s.arena.interns_internContext c).grows fun _ => rfl⟩

theorem exists_object (o : CSObj) (s : State) : ∃ k t, objectId o s = .ok k t ∧ Joins P s t :=
  ⟨_, _, rfl, joins_arena { Arena.Grows.refl s.arena with
    objects := fun _ _ h => Interner.get?_intern_of_some h } fun _ => rfl⟩

theorem exists_method (n : CSMethod) (s : State) :
    ∃ j t, methodId n s = .ok j t ∧ Joins P s t ∧ t.arena.methods.get? j = some n :=
  ⟨_, _, rfl, joins_arena { Arena.Grows.refl s.arena with
    methods := fun _ _ h => Interner.get?_intern_of_some h } fun _ => rfl, Interner.get?_intern_self⟩

theorem exists_site (x : CSSite) (s : State) :
    ∃ i t, siteId x s = .ok i t ∧ Joins P s t ∧ t.arena.sites.get? i = some x :=
  ⟨_, _, rfl, joins_arena { Arena.Grows.refl s.arena with
    sites := fun _ _ h => Interner.get?_intern_of_some h } fun _ => rfl, Interner.get?_intern_self⟩

theorem exists_pointer (q : Pointer) (s : State) :
    ∃ i t, pointerId q s = .ok i t ∧ Joins P s t ∧ t.arena.pointers.get? i = some q := by
  refine ⟨_, _, rfl, joins_arena (s.arena.grows_internPointer q)
    fun _ => Arena.pointsTo_internPointer, ?_⟩
  show (s.arena.internPointer q).2.pointers.get? (s.arena.internPointer q).1 = some q
  rw [(s.arena.internPointer_eq q).2.1, (s.arena.internPointer_eq q).1]
  exact Interner.get?_intern_self

theorem flowsTo_addFlow {p q : Pointer} {i j : PointerId} (hi : s.arena.pointers.get? i = some p)
    (hj : s.arena.pointers.get? j = some q) : (s.addFlow i j).FlowsTo p q := by
  unfold State.addFlow
  split
  · rename_i hedge
    exact ⟨i, j, hi, hj, FlowGraph.hasEdge_iff.1 hedge⟩
  · split
    · exact ⟨i, j, hi, hj, FlowGraph.mem_successors_addEdge⟩
    · exact ⟨i, j, hi, hj, FlowGraph.mem_successors_addEdge⟩

theorem exists_connect {p q : Pointer} (hp : P p) (hq : P q) (s : State) :
    ∃ t, connect p q s = .ok () t ∧ Joins P s t ∧ t.FlowsTo p q := by
  obtain ⟨i, t, ht, hst, hi⟩ := exists_pointer (P := P) p s
  obtain ⟨j, u, hu, htu, hj⟩ := exists_pointer (P := P) q t
  have hi := htu.grows.arena.pointers i p hi
  refine ⟨u.addFlow i j, ?_, (hst.trans htu).trans (joins_addFlow ⟨p, hi, hp⟩ ⟨q, hj, hq⟩),
    flowsTo_addFlow hi hj⟩
  exact (bind_of_ok ht).trans ((bind_of_ok hu).trans rfl)

/-- A loop of additions achieves what each round achieves, since nothing is taken back. -/
theorem exists_forM {α : Type} {xs : List α} {g : α → SolveM Unit} {p q : α → Pointer}
    (h : ∀ x ∈ xs, ∀ t, Joins P s t → ∃ u, g x t = .ok () u ∧ Joins P t u ∧ u.FlowsTo (p x) (q x)) :
    ∃ t, xs.forM g s = .ok () t ∧ Joins P s t ∧ ∀ x ∈ xs, t.FlowsTo (p x) (q x) := by
  induction xs generalizing s with
  | nil => exact ⟨s, rfl, .refl s, fun x hx => absurd hx List.not_mem_nil⟩
  | cons x xs ih =>
    obtain ⟨t, ht, hst, hx⟩ := h x List.mem_cons_self s (.refl s)
    obtain ⟨u, hu, htu, hxs⟩ := ih fun y hy v hv => h y (List.mem_cons_of_mem x hy) v (hst.trans hv)
    refine ⟨u, (bind_of_ok ht).trans hu, hst.trans htu, ?_⟩
    intro y hy
    rcases List.mem_cons.1 hy with rfl | hy
    · exact hx.mono htu.grows
    · exact hxs y hy

section

variable {x : CSSite} {n : CSMethod} {d : Call} {decl : MethodDecl}

theorem exists_passArguments (hargs : ∀ a ∈ d.args, P (.var x.context a))
    (hparams : ∀ b ∈ decl.params, P (.var n.context b)) (s : State) :
    ∃ t, ((d.args.zip decl.params).forM fun (arg, param) =>
        connect (.var x.context arg) (.var n.context param)) s = .ok () t ∧ Joins P s t ∧
      ∀ ab ∈ d.args.zip decl.params, t.FlowsTo (.var x.context ab.1) (.var n.context ab.2) := by
  refine exists_forM fun ab hab t _ => ?_
  obtain ⟨ha, hb⟩ := List.of_mem_zip hab
  exact exists_connect (hargs _ ha) (hparams _ hb) t

theorem exists_passResult {r : VarId} (hr : P (.var x.context r))
    (hreturns : ∀ v ∈ decl.returns, P (.var n.context v)) (s : State) :
    ∃ t, (do
        let target ← pointerId (.var x.context r)
        decl.returns.forM fun ret => do
          let source ← pointerId (.var n.context ret)
          addFlow source target : SolveM Unit) s = .ok () t ∧ Joins P s t ∧
      ∀ v ∈ decl.returns, t.FlowsTo (.var n.context v) (.var x.context r) := by
  obtain ⟨j, t, ht, hst, hj⟩ := exists_pointer (P := P) (.var x.context r) s
  have hloop : ∃ u, (decl.returns.forM fun ret => do
      let source ← pointerId (.var n.context ret)
      addFlow source j : SolveM Unit) t = .ok () u ∧ Joins P t u ∧
      ∀ v ∈ decl.returns, u.FlowsTo (.var n.context v) (.var x.context r) := by
    refine exists_forM fun v hv u htu => ?_
    obtain ⟨i, w, hw, huw, hi⟩ := exists_pointer (P := P) (.var n.context v) u
    have hj := (htu.trans huw).grows.arena.pointers j _ hj
    exact ⟨w.addFlow i j, (bind_of_ok hw).trans rfl,
      huw.trans (joins_addFlow ⟨_, hi, hreturns v hv⟩ ⟨_, hj, hr⟩), flowsTo_addFlow hi hj⟩
  obtain ⟨u, hu, htu, hflow⟩ := hloop
  exact ⟨u, (bind_of_ok ht).trans hu, hst.trans htu, hflow⟩

/-- All values of a call are passed. -/
theorem exists_passValues (hcall : ∀ v ∈ d.vars, P (.var x.context v))
    (hcallee : ∀ v ∈ Program.mentionedVars decl, P (.var n.context v)) (s : State) :
    ∃ t, (do
        (d.args.zip decl.params).forM fun (arg, param) =>
          connect (.var x.context arg) (.var n.context param)
        match d.result with
        | none => pure ()
        | some result =>
          let target ← pointerId (.var x.context result)
          decl.returns.forM fun ret => do
            let source ← pointerId (.var n.context ret)
            addFlow source target : SolveM Unit) s = .ok () t ∧ Joins P s t ∧
      (∀ ab ∈ d.args.zip decl.params, t.FlowsTo (.var x.context ab.1) (.var n.context ab.2)) ∧
      ∀ r ∈ d.result, ∀ v ∈ decl.returns, t.FlowsTo (.var n.context v) (.var x.context r) := by
  have hargs : ∀ a ∈ d.args, P (.var x.context a) := fun a ha =>
    hcall a (by simp [Call.vars, ha])
  have hparams : ∀ b ∈ decl.params, P (.var n.context b) := fun b hb =>
    hcallee b (by simp [Program.mentionedVars, hb])
  have hreturns : ∀ v ∈ decl.returns, P (.var n.context v) := fun v hv =>
    hcallee v (by simp [Program.mentionedVars, hv])
  obtain ⟨t, ht, hst, hargs⟩ := exists_passArguments hargs hparams s
  cases hr : d.result with
  | none => exact ⟨t, bind_of_ok ht, hst, hargs, fun r hr => absurd hr (Option.not_mem_none r)⟩
  | some r =>
    have hresult := hcall r (by simp [Call.vars, hr])
    obtain ⟨u, hu, htu, hflow⟩ := exists_passResult hresult hreturns t
    refine ⟨u, (bind_of_ok ht).trans hu, hst.trans htu, fun ab hab => (hargs ab hab).mono htu.grows, ?_⟩
    intro r' hr'
    obtain rfl := Option.some.inj hr'
    exact hflow

end

/-! ## Changes -/

/-- A pointer that a call in one method of another may touch. -/
def Between (setup : Setup) (m n : CSMethod) (q : Pointer) : Prop :=
  q.Within setup.program.toProgram m ∨ q.Within setup.program.toProgram n

/-- What a rule changes that works for the method `m`. -/
inductive Change (setup : Setup) (m : CSMethod) (s t : State) : Prop where
  | join (joins : Joins (·.Within setup.program.toProgram m) s t)
  /-- A call edge is added and installed whole. -/
  | call {kind : EdgeKind} {i : CSSiteId} {j : CSMethodId} {x : CSSite} {n : CSMethod} {d : Call}
      {decl : MethodDecl} (new : s.callGraph.hasEdge i j = false) (links : Links (Between setup m n) s t)
      (callGraph : t.callGraph = (s.addCall kind i j).callGraph)
      (pending : t.pending = (s.addCall kind i j).pending) (caller : x.caller = m)
      (whole : t.Installs setup ⟨kind, i, j⟩ x n d decl)
  /-- The edge is there. -/
  | again {i : CSSiteId} {j : CSMethodId} {n : CSMethod} (old : s.callGraph.hasEdge i j = true)
      (callee : t.arena.methods.get? j = some n) (joins : Joins (Between setup m n) s t)

theorem Change.grows (h : Change setup m s t) : s.Grows t := by
  cases h with
  | join joins => exact joins.grows
  | call _ links => exact links.grows
  | again _ _ joins => exact joins.grows

/-- What several rules change that work for `m`. -/
abbrev Changes (setup : Setup) (m : CSMethod) : State → State → Prop :=
  Relation.ReflTransGen (Change setup m)

/-- The action relates the state it leaves behind to the one it is started in; if it fails, it may leave
any worklist behind. -/
def Moves {α : Type} (R : State → State → Prop) (x : SolveM α) (s : State) : Prop :=
  Ends x s (fun _ t => R s t) fun _ t => ∃ w, R s { t with worklist := w }

section

variable {α β : Type} {x : SolveM α} {f : α → SolveM β}

theorem Moves.throw (e : AnalysisError) (s : State) :
    Moves (Changes setup m) (throw e : SolveM α) s := ⟨s.worklist, .refl⟩

theorem Moves.pure (a : α) (s : State) : Moves (Changes setup m) (pure a : SolveM α) s :=
  Relation.ReflTransGen.refl

theorem Moves.bind (hx : Moves (Changes setup m) x s)
    (hf : ∀ a t, Moves (Changes setup m) (f a) t) : Moves (Changes setup m) (x >>= f) s := by
  refine Ends.bind hx (fun a t hst => ?_) fun _ _ h => h
  refine Ends.mono (hf a t) (fun b u hu => hst.trans hu) ?_
  rintro e u ⟨w, hw⟩
  exact ⟨w, hst.trans hw⟩

/-- What an action adds that succeeds comes before what the rest does. -/
theorem Moves.after_joins {a : α} (hx : x s = .ok a t)
    (ht : Joins (·.Within setup.program.toProgram m) s t) (hf : Moves (Changes setup m) (f a) t) :
    Moves (Changes setup m) (x >>= f) s := by
  have hst : Changes setup m s t := .single (.join ht)
  refine Ends.bind_of_eq hx (Ends.mono hf (fun b u hu => hst.trans hu) ?_)
  rintro e u ⟨w, hw⟩
  exact ⟨w, hst.trans hw⟩

/-- A look-up either finds something or fails in the state it is made in. -/
theorem Ends.lookup {ok : β → State → Prop} {failed : AnalysisError → State → Prop} {o : Option α}
    (hx : x s = known o s) (hf : ∀ a, o = some a → Ends (f a) s ok failed)
    (hnone : failed .unknownId s) : Ends (x >>= f) s ok failed := by
  cases o with
  | none =>
    have herror : (x >>= f) s = .error .unknownId s := bind_of_error hx
    rw [Ends, herror]
    exact hnone
  | some a => exact Ends.bind_of_eq hx (hf a rfl)

theorem Moves.lookup {o : Option α} (hx : x s = known o s)
    (hf : ∀ a, o = some a → Moves (Changes setup m) (f a) s) : Moves (Changes setup m) (x >>= f) s :=
  Ends.lookup hx hf ⟨s.worklist, .refl⟩

theorem Moves.forM {xs : List α} {g : α → SolveM Unit}
    (h : ∀ x ∈ xs, ∀ t, Moves (Changes setup m) (g x) t) : Moves (Changes setup m) (xs.forM g) s := by
  induction xs generalizing s with
  | nil => exact Moves.pure () s
  | cons x xs ih =>
    refine (h x List.mem_cons_self s).bind fun _ t => ?_
    exact ih fun y hy => h y (List.mem_cons_of_mem x hy)

end

/-! ## The rules -/

section

variable (hset : setup.WellFormed)

include hset

theorem within_of_stmt {c : ContextId} {site : Site} {stmt : Stmt} {v : VarId}
    (hs : setup.program.stmt? site = some stmt) (hv : v ∈ stmt.vars) :
    (Pointer.var c v).Within setup.program.toProgram ⟨c, site.method⟩ :=
  ⟨rfl, Program.var_of_stmt hset.valid hs hv⟩

theorem within_of_mentioned {n : CSMethod} {decl : MethodDecl} {v : VarId}
    (hn : setup.program.method? n.method = some decl) (hv : v ∈ Program.mentionedVars decl) :
    (Pointer.var n.context v).Within setup.program.toProgram n :=
  ⟨rfl, Program.var_of_mentioned hset.valid hn hv⟩

/-- Installing a call edge is one change, together with what led to it from `s`. If that fails, nothing
has been done. -/
theorem moves_connectCall {x : CSSite} {n : CSMethod} {d : Call} {i : CSSiteId} {j : CSMethodId}
    (before : Joins (Between setup m n) s u) (hfail : ∃ w, Changes setup m s { u with worklist := w })
    (hi : u.arena.sites.get? i = some x) (hx : x.caller = m)
    (hj : u.arena.methods.get? j = some n) (hd : setup.program.stmt? x.site = some (.call d))
    (kind : EdgeKind) :
    Ends (connectCall setup kind i j d) u (fun _ t => Changes setup m s t)
      fun _ t => ∃ w, Changes setup m s { t with worklist := w } := by
  have hcall : ∀ v ∈ d.vars, Between setup m n (.var x.context v) := fun v hv =>
    Or.inl (hx ▸ within_of_stmt (c := x.context) hset hd (v := v) hv)
  unfold connectCall
  refine Ends.bind_of_eq get_eq ?_
  split
  · rename_i hedge
    rw [before.callGraph] at hedge
    exact .single (.again hedge hj before)
  rename_i hedge
  have hnew : u.callGraph.hasEdge i j = false := Bool.eq_false_iff.2 hedge
  refine Ends.bind_of_eq (siteOf_eq hi) (Ends.bind_of_eq (methodOf_eq hj) ?_)
  cases hdecl : setup.program.method? n.method with
  | none => exact hfail
  | some decl =>
    refine Ends.bind_of_eq (known_eq rfl) ?_
    split
    · exact hfail
    rename_i harity
    refine Ends.bind_of_eq modify_eq ?_
    obtain ⟨t, ht, hjoins, hargs, hresults⟩ := exists_passValues (P := Between setup m n) hcall
      (fun v hv => Or.inr (within_of_mentioned hset hdecl hv)) (u.addCall kind i j)
    have hwhole : t.Installs setup ⟨kind, i, j⟩ x n d decl := {
      site := hjoins.grows.arena.sites i x hi
      callee := hjoins.grows.arena.methods j n hj
      stmt := hd
      method := hdecl
      arity := Decidable.of_not_not harity
      args := fun k a b ha hb =>
        hargs (a, b) (List.mem_of_getElem? (List.getElem?_zip_eq_some.2 ⟨ha, hb⟩))
      results := hresults }
    have hlinks : Links (Between setup m n) s t :=
      before.toLinks.trans ((links_addCall kind i j).trans hjoins.toLinks)
    have hgraph : t.callGraph = (s.addCall kind i j).callGraph := by
      rw [hjoins.callGraph, State.addCall, State.addCall, before.callGraph]
    have hpending : t.pending = (s.addCall kind i j).pending := by
      rw [hjoins.pending, State.addCall, State.addCall, before.pending]
    rw [before.callGraph] at hnew
    exact Ends.of_eq ht (.single (.call hnew hlinks hgraph hpending hx hwhole))

omit hset in
theorem moves_allocate (c : ContextId) (site : Site) :
    Moves (Changes setup m) (allocate setup c site) s := by
  unfold allocate
  cases setup.heap.objectAt? site with
  | none => exact Moves.throw _ s
  | some object =>
    refine Moves.lookup rfl fun method _ => ?_
    obtain ⟨k, t, ht, hst⟩ := exists_context (setup.selector.heapContext method object) s
    obtain ⟨o, u, hu, htu⟩ := exists_object ⟨k, object.id⟩ t
    exact Moves.after_joins ht hst (Ends.of_eq hu (.single (.join htu)))

omit hset in
theorem moves_connect {p q : Pointer} (hp : p.Within setup.program.toProgram m)
    (hq : q.Within setup.program.toProgram m) : Moves (Changes setup m) (connect p q) s := by
  obtain ⟨t, ht, hst, -⟩ := exists_connect (P := (·.Within setup.program.toProgram m)) hp hq s
  exact Ends.of_eq ht (.single (.join hst))

theorem moves_callStatic {c : ContextId} {site : Site} {d : Call}
    (hd : setup.program.stmt? site = some (.call d)) :
    Moves (Changes setup ⟨c, site.method⟩) (callStatic setup c site d) s := by
  unfold callStatic
  cases setup.program.resolveStatic d with
  | error e => exact Moves.throw _ s
  | ok callee =>
    refine Moves.lookup rfl fun caller _ => ?_
    obtain ⟨k, t, ht, hst⟩ := exists_context (P := (·.Within setup.program.toProgram ⟨c, site.method⟩))
      (setup.selector.calleeContext caller site none callee) s
    obtain ⟨j, u, hu, htu, hj⟩ := exists_method ⟨k, callee⟩ t
    obtain ⟨i, v, hv, huv, hi⟩ := exists_site ⟨c, site⟩ u
    refine Ends.bind_of_eq ht (Ends.bind_of_eq hu (Ends.bind_of_eq hv ?_))
    have hsv := (hst.trans htu).trans huv
    exact moves_connectCall hset (hsv.mono fun q hq => Or.inl hq)
      ⟨v.worklist, .single (.join hsv)⟩ hi rfl (huv.grows.arena.methods j _ hj) hd .static

theorem moves_wire {c : ContextId} {site : Site} {stmt : Stmt}
    (hs : setup.program.stmt? site = some stmt) :
    Moves (Changes setup ⟨c, site.method⟩) (wire setup c site stmt) s := by
  have hwithin {v : VarId} (hv : v ∈ stmt.vars) :
      (Pointer.var c v).Within setup.program.toProgram ⟨c, site.method⟩ := within_of_stmt hset hs hv
  cases stmt with
  | new lhs ty =>
    refine (moves_allocate c site).bind fun o t => ?_
    obtain ⟨i, u, hu, htu, hi⟩ := exists_pointer (.var c lhs) t
    refine Moves.after_joins hu htu (Ends.of_eq rfl (.single (.join ?_)))
    exact joins_arrive ⟨_, hi, hwithin (by simp [Stmt.vars])⟩ _
  | copy lhs rhs =>
    exact moves_connect (hwithin (by simp [Stmt.vars])) (hwithin (by simp [Stmt.vars]))
  | loadStatic lhs f => exact moves_connect trivial (hwithin (by simp [Stmt.vars]))
  | storeStatic f rhs => exact moves_connect (hwithin (by simp [Stmt.vars])) trivial
  | call d =>
    show Moves _ (if d.isStatic then callStatic setup c site d else pure ()) s
    split
    · exact moves_callStatic hset hs
    · exact Moves.pure () s
  | loadField | storeField | loadArray | storeArray => exact Moves.pure () s

theorem moves_wireBody {j : CSMethodId} (hj : s.arena.methods.get? j = some m) :
    Moves (Changes setup m) (wireBody setup j) s := by
  refine Ends.bind_of_eq (methodOf_eq hj) ?_
  refine Moves.lookup rfl fun decl hdecl => Moves.forM ?_
  rintro ⟨stmt, n⟩ hy t
  have hs : setup.program.stmt? ⟨m.method, n⟩ = some stmt := by
    rw [Program.stmt?, hdecl]
    exact List.mem_zipIdx_iff_getElem?.1 hy
  exact moves_wire hset hs

omit hset in
theorem moves_wireUse {flow : Stmt → Option (Pointer × Pointer)} {site : Site} {stmt : Stmt}
    {p q : Pointer} (hs : setup.program.stmt? site = some stmt) (hflow : flow stmt = some (p, q))
    (hp : p.Within setup.program.toProgram m) (hq : q.Within setup.program.toProgram m) :
    Moves (Changes setup m) (wireUse setup flow site) s := by
  refine Ends.bind_of_eq (known_eq hs) ?_
  rw [hflow]
  exact moves_connect hp hq

omit hset in
/-- A variable that does not exist has no uses, so any method will do for it. -/
theorem exists_methodOfVar (setup : Setup) (v : VarId) :
    ∃ n, ∀ x, setup.program.var? v = some x → x.method = n := by
  cases hv : setup.program.var? v with
  | none => exact ⟨0, fun x hx => nomatch hx⟩
  | some x => exact ⟨x.method, fun y hy => by rw [Option.some.inj hy]⟩

variable {c : ContextId} {v : VarId} {n : MethodId}
  (hn : ∀ x, setup.program.var? v = some x → x.method = n)

include hn

/-- A statement that mentions the variable stands in the variable's method. -/
theorem method_of_use {site : Site} {stmt : Stmt} (hs : setup.program.stmt? site = some stmt)
    (hv : v ∈ stmt.vars) : site.method = n := by
  obtain ⟨x, hx, hm⟩ := Program.var_of_stmt hset.valid hs hv
  rw [← hm, hn x hx]

theorem within_of_use {site : Site} {stmt : Stmt} {w : VarId}
    (hs : setup.program.stmt? site = some stmt) (hv : v ∈ stmt.vars) (hw : w ∈ stmt.vars) :
    (Pointer.var c w).Within setup.program.toProgram ⟨c, n⟩ := by
  have hsite := method_of_use hset hn hs hv
  have hwithin := within_of_stmt (c := c) hset hs hw
  rwa [hsite] at hwithin

theorem moves_wireAccesses (o : CSObjId) :
    Moves (Changes setup ⟨c, n⟩) (wireAccesses setup c v o) s := by
  have hwithin {site : Site} {stmt : Stmt} {w : VarId} (hs : setup.program.stmt? site = some stmt)
      (hv : v ∈ stmt.vars) (hw : w ∈ stmt.vars) := within_of_use (c := c) hset hn hs hv hw
  unfold wireAccesses
  refine Moves.bind (Moves.forM fun site hsite t => ?_) fun _ t => ?_
  · obtain ⟨f, rhs, hs⟩ := hset.mem_storeFields.1 hsite
    exact moves_wireUse hs rfl (hwithin hs (by simp [Stmt.vars]) (by simp [Stmt.vars])) trivial
  refine Moves.bind (Moves.forM fun site hsite t => ?_) fun _ t => ?_
  · obtain ⟨lhs, f, hs⟩ := hset.mem_loadFields.1 hsite
    exact moves_wireUse hs rfl trivial (hwithin hs (by simp [Stmt.vars]) (by simp [Stmt.vars]))
  refine Moves.bind (Moves.forM fun site hsite t => ?_) fun _ t => ?_
  · obtain ⟨rhs, hs⟩ := hset.mem_storeArrays.1 hsite
    exact moves_wireUse hs rfl (hwithin hs (by simp [Stmt.vars]) (by simp [Stmt.vars])) trivial
  · refine Moves.forM fun site hsite t => ?_
    obtain ⟨lhs, hs⟩ := hset.mem_loadArrays.1 hsite
    exact moves_wireUse hs rfl trivial (hwithin hs (by simp [Stmt.vars]) (by simp [Stmt.vars]))

theorem moves_callOn {site : Site} {d : Call} (hd : setup.program.stmt? site = some (.call d))
    (hr : d.receiver = some v) (o : CSObjId) :
    Moves (Changes setup ⟨c, n⟩) (callOn setup c o site) s := by
  have hsite : site.method = n := method_of_use hset hn hd (by simp [Stmt.vars, Call.vars, hr])
  refine Ends.bind_of_eq (known_eq hd) ?_
  refine Moves.lookup rfl fun recorded _ => Moves.lookup rfl fun object _ => ?_
  cases setup.program.resolve? object.ty d with
  | none => exact Ends.of_eq rfl (.single (.join joins_countMiss))
  | some callee =>
    refine Moves.lookup rfl fun caller _ => Moves.lookup rfl fun heapContext _ => ?_
    obtain ⟨k, t, ht, hst⟩ := exists_context (P := (·.Within setup.program.toProgram ⟨c, n⟩))
      (setup.selector.calleeContext caller site (some ⟨heapContext, object⟩) callee) s
    obtain ⟨j, u, hu, htu, hj⟩ := exists_method (P := (·.Within setup.program.toProgram ⟨c, n⟩))
      ⟨k, callee⟩ t
    refine Moves.after_joins ht hst (Moves.after_joins hu htu ?_)
    refine Moves.lookup rfl fun decl hdecl => ?_
    cases hthis : decl.this with
    | none => exact Moves.throw _ u
    | some this =>
      have hwithin : Between setup ⟨c, n⟩ ⟨k, callee⟩ (.var k this) :=
        Or.inr (within_of_mentioned (n := ⟨k, callee⟩) hset hdecl
          (by simp [Program.mentionedVars, hthis]))
      obtain ⟨i, w, hw, huw, hi⟩ := exists_pointer (.var k this) u
      refine Moves.after_joins hw huw ?_
      -- the receiver waits at `this`, and the edge may still fail
      have harrive : Joins (Between setup ⟨c, n⟩ ⟨k, callee⟩) w (w.arrive i (.singleton o)) :=
        joins_arrive ⟨_, hi, hwithin⟩ _
      have hgrows : w.arena.Grows (w.arena.internSite ⟨c, site⟩).2 :=
        { Arena.Grows.refl w.arena with sites := fun _ _ h => Interner.get?_intern_of_some h }
      refine Ends.bind_of_eq (a := ()) rfl (Ends.bind_of_eq (a := (w.arena.internSite ⟨c, site⟩).1) rfl ?_)
      refine moves_connectCall hset (harrive.trans (joins_arena hgrows fun _ => rfl))
        ⟨w.worklist, .single (.join (joins_arena hgrows fun _ => rfl))⟩ Interner.get?_intern_self ?_
        (huw.grows.arena.methods j _ hj) hd (.ofMode d.mode)
      rw [CSSite.caller, hsite]

theorem moves_callsOn (o : CSObjId) : Moves (Changes setup ⟨c, n⟩) (callsOn setup c v o) s := by
  refine Moves.forM fun site hsite t => ?_
  obtain ⟨d, hd, -, hr⟩ := hset.mem_calls.1 hsite
  exact moves_callOn hset hn hd hr o

theorem moves_meetObject (o : CSObjId) :
    Moves (Changes setup ⟨c, n⟩) (meetObject setup c v o) s :=
  (moves_wireAccesses hset hn o).bind fun _ _ => moves_callsOn hset hn o

end

end Solver

end PointsTo
