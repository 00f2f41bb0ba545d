import PointsTo.Proofs.Actions
import PointsTo.Proofs.Validity
import PointsTo.Solver.Rules

/-!
# What the rules of a run do

One lemma for each rule of the solver. Each says that the rule acts within a closed family (`Acts`),
whatever the state it meets, and that afterwards everything is known that the rule is there for: the
effects of a statement (`acts_wire`), the accesses of a variable (`acts_wireAccesses`), the calls on a
variable (`acts_callsOn`). For a whole method and for a new object at a variable the lemmas add up to
all that the premise entails.
-/

namespace PointsTo.Solver

variable {setup : Setup} {entries : List MethodId} {F : Fact → Prop} {s : State}

theorem locate?_var {a : Arena} {k : ContextId} {c : Context} {v : VarId}
    (h : a.contexts.get? k = some c) : a.locate? (.var k v) = some (.var c v) :=
  Arena.locate?_eq_var_iff.2 ⟨k, rfl, h⟩

/-! ## Call edges -/

section

variable {i : CSSiteId} {j : CSMethodId} {x : SiteInstance} {m : MethodInstance} {d : Call}
  {method : MethodDecl}

/-- An edge that is there already has the kind of its call. -/
theorem knows_of_hasEdge (hs : s.Sound setup F) (hx : s.arena.site? i = some x)
    (hm : s.arena.method? j = some m) (hd : setup.program.stmt? x.site = some (.call d))
    (h : s.callGraph.hasEdge i j = true) : s.Knows (.call (.ofMode d.mode) x m) := by
  rw [CallGraph.hasEdge_iff] at h
  obtain ⟨e, he, heq⟩ := h
  have hfound : s.Found (.call e.kind x m) := ⟨e, he, rfl, heq.1 ▸ hx, heq.2 ▸ hm⟩
  obtain ⟨d', hd', hkind⟩ := hs.calls e.kind x m hfound
  rw [hd] at hd'
  cases hd'
  rw [← hkind]
  exact Or.inl hfound

/-- Arguments flow to parameters. -/
theorem acts_passArguments (hF : Closed setup entries F) (hs : s.Sound setup F) {k l : ContextId}
    (hk : s.arena.contexts.get? k = some x.context) (hl : s.arena.contexts.get? l = some m.context)
    (hd : setup.program.stmt? x.site = some (.call d))
    (hmethod : setup.program.method? m.method = some method)
    (hcall : F (.call (.ofMode d.mode) x m)) :
    Acts setup F 0
      ((d.args.zip method.params).forM fun (arg, param) => connect (.var k arg) (.var l param)) s
      fun _ t => ∀ y ∈ d.args.zip method.params,
        t.Knows (.flow (.var x.context y.1) (.var m.context y.2)) := by
  refine Acts.forM_zero hs (fun h hx => h.knows hx) ?_
  rintro ⟨arg, param⟩ hy t n ht
  have hfl : F (.flow (.var x.context arg) (.var m.context param)) :=
    hF.rule (.argument hd hmethod hy) hcall
  have hk := ht.grows.arena.contexts _ _ hk
  have hl := ht.grows.arena.contexts _ _ hl
  exact acts_connect hF ht.sound (locate?_var hk) (locate?_var hl) hfl

/-- Return variables flow to the result, which occurs even if there are none. -/
theorem acts_passResult (hF : Closed setup entries F) (hs : s.Sound setup F) {k l : ContextId}
    (hk : s.arena.contexts.get? k = some x.context) (hl : s.arena.contexts.get? l = some m.context)
    (hd : setup.program.stmt? x.site = some (.call d))
    (hmethod : setup.program.method? m.method = some method)
    (hcall : F (.call (.ofMode d.mode) x m)) {result : VarId} (hr : d.result = some result) :
    Acts setup F 0
      (do
        let target ← pointerId (.var k result)
        method.returns.forM fun ret => do
          let source ← pointerId (.var l ret)
          addFlow source target) s
      fun _ t => t.Knows (.location (.var x.context result)) ∧ ∀ ret ∈ method.returns,
        t.Knows (.flow (.var m.context ret) (.var x.context result)) := by
  refine Acts.bind (acts_pointerId hs (locate?_var hk) (hF.rule (.result hd hr) hcall)) ?_
  intro target t ht htarget
  refine Acts.mono (Acts.forM_zero (L := fun ret t =>
    t.Knows (.flow (.var m.context ret) (.var x.context result))) ht.sound
    (fun h hx => h.knows hx) ?_) ?_
  · intro ret hret u n hu
    have hfl : F (.flow (.var m.context ret) (.var x.context result)) :=
      hF.rule (.returned hd hmethod hr hret) hcall
    have hl := hu.grows.arena.contexts _ _ (ht.grows.arena.contexts _ _ hl)
    refine Acts.bind (acts_pointerId hu.sound (locate?_var hl) (hF.rule .source hfl)) ?_
    intro source v hv hsource
    have htarget := hv.grows.arena.location? (hu.grows.arena.location? htarget)
    exact acts_addFlow hF hv.sound hsource htarget hfl
  · intro _ u hu hall
    exact ⟨Or.inl ⟨target, hu.grows.arena.location? htarget⟩, hall⟩

/-- What a call edge entails is known once arguments and results are passed, if its caller is found
and its callee waits. -/
theorem acts_passValues (hF : Closed setup entries F) (hs : s.Sound setup F) {k l : ContextId}
    (hx : s.arena.site? i = some x) (hreach : s.Knows (.reachable m))
    (hk : s.arena.contexts.get? k = some x.context) (hl : s.arena.contexts.get? l = some m.context)
    (hd : setup.program.stmt? x.site = some (.call d))
    (hmethod : setup.program.method? m.method = some method)
    (hcall : F (.call (.ofMode d.mode) x m)) :
    Acts setup F 0
      (do
        (d.args.zip method.params).forM fun (arg, param) => connect (.var k arg) (.var l param)
        match d.result with
        | none => pure ()
        | some result =>
          let target ← pointerId (.var k result)
          method.returns.forM fun ret => do
            let source ← pointerId (.var l ret)
            addFlow source target) s
      fun _ t => ∀ f, Entails setup (.call (.ofMode d.mode) x m) f → t.Knows f := by
  refine Acts.bind (acts_passArguments hF hs hk hl hd hmethod hcall) ?_
  intro _ t ht hargs
  have hknown (u : State) (hu : Evolves setup F 0 t u)
      (hresult : ∀ r, d.result = some r → u.Knows (.location (.var x.context r)) ∧
        ∀ ret ∈ method.returns, u.Knows (.flow (.var m.context ret) (.var x.context r))) :
      ∀ f, Entails setup (.call (.ofMode d.mode) x m) f → u.Knows f := by
    intro f hf
    cases hf with
    | caller => exact Or.inl ⟨i, hu.grows.arena.site? (ht.grows.arena.site? hx)⟩
    | callee => exact hu.knows (ht.knows hreach)
    | argument hd' hmethod' ha =>
      rw [hd] at hd'
      rw [hmethod] at hmethod'
      cases hd'
      cases hmethod'
      exact hu.knows (hargs _ ha)
    | result hd' hr =>
      rw [hd] at hd'
      cases hd'
      exact (hresult _ hr).1
    | returned hd' hmethod' hr hv =>
      rw [hd] at hd'
      rw [hmethod] at hmethod'
      cases hd'
      cases hmethod'
      exact (hresult _ hr).2 _ hv
  cases hr : d.result with
  | none =>
    refine Acts.pure ht.sound (hknown t (.refl ht.sound) ?_)
    intro r hr'
    rw [hr] at hr'
    cases hr'
  | some result =>
    have hk := ht.grows.arena.contexts _ _ hk
    have hl := ht.grows.arena.contexts _ _ hl
    refine Acts.mono (acts_passResult hF ht.sound hk hl hd hmethod hcall hr) ?_
    rintro - u hu ⟨hloc, hret⟩
    refine hknown u hu ?_
    intro r hr'
    rw [hr] at hr'
    cases hr'
    exact ⟨hloc, hret⟩

theorem acts_connectCall (hF : Closed setup entries F) (hs : s.Sound setup F)
    (hx : s.arena.site? i = some x) (hm : s.arena.method? j = some m)
    (hd : setup.program.stmt? x.site = some (.call d))
    (hmethod : setup.program.method? m.method = some method)
    (hcall : F (.call (.ofMode d.mode) x m)) :
    Acts setup F 0 (connectCall setup (.ofMode d.mode) i j d) s
      fun _ t => t.Knows (.call (.ofMode d.mode) x m) := by
  unfold connectCall
  refine Acts.bind_of_eq get_eq ?_
  by_cases hedge : s.callGraph.hasEdge i j = true
  · rw [if_pos hedge]
    exact Acts.pure hs (knows_of_hasEdge hs hx hm hd hedge)
  rw [if_neg hedge]
  have hnew : s.callGraph.hasEdge i j = false := Bool.eq_false_iff.2 hedge
  obtain ⟨k, hk, hkc⟩ := Arena.site?_eq_some_iff.1 hx
  obtain ⟨l, hl, hlc⟩ := Arena.method?_eq_some_iff.1 hm
  refine Acts.bind_of_eq (siteOf_eq hk) ?_
  refine Acts.bind_of_eq (methodOf_eq hl) ?_
  refine Acts.bind_of_eq (known_eq hmethod) ?_
  by_cases hlen : d.args.length ≠ method.params.length
  · rw [if_pos hlen]
    exact Acts.throw hs hcall (.arity hd hmethod hlen)
  rw [if_neg hlen]
  -- the edge is there before what it entails is known, so the state has not evolved in between
  have hs' := sound_addCall hs hnew hx hm hd hcall (hF.rule .callee hcall)
  have hgrows : s.Grows (s.addCall (.ofMode d.mode) i j) := grows_addCall hnew
  have hedges : ⟨_, i, j⟩ ∈ (s.addCall (.ofMode d.mode) i j).callGraph.edges := mem_edges_addCall hnew
  have hreach : (s.addCall (.ofMode d.mode) i j).Waiting (.reachable m) :=
    waiting_callee hnew hm
  have htail := acts_passValues hF hs' (hgrows.arena.site? hx) (Or.inr hreach)
    (hgrows.arena.contexts _ _ hkc) (hgrows.arena.contexts _ _ hlc) hd hmethod hcall
  refine Ends.bind_of_eq modify_eq (Ends.mono htail ?_ fun _ _ h => h)
  rintro - t ⟨ht, hall⟩
  have hfault : ∀ e, ¬Fault setup (.call (.ofMode d.mode) x m) e := by
    intro e he
    cases he with
    | arity hd' hmethod' hlen' =>
      rw [hd] at hd'
      rw [hmethod] at hmethod'
      cases hd'
      cases hmethod'
      exact hlen hlen'
  refine ⟨evolves_addCall hnew hx hm ht ⟨hall, hfault⟩, Or.inl (ht.grows.found ?_)⟩
  exact ⟨_, hedges, rfl, hgrows.arena.site? hx, hgrows.arena.method? hm⟩

end

/-! ## Statements -/

section

variable {m : MethodInstance} {c : ContextId} {i : Nat}

theorem acts_allocate (hset : setup.WellFormed) (hF : Closed setup entries F)
    (hs : s.Sound setup F) (hc : s.arena.contexts.get? c = some m.context) (hm : F (.reachable m))
    {lhs : VarId} {ty : TypeRef} (hn : setup.program.stmt? ⟨m.method, i⟩ = some (.new lhs ty)) :
    Acts setup F 0 (allocate setup c ⟨m.method, i⟩) s fun k t =>
      ∃ a, setup.heap.objectAt? ⟨m.method, i⟩ = some a ∧
        t.arena.object? k = some ⟨setup.selector.heapContext m.context a, a.id⟩ := by
  unfold allocate
  cases ha : setup.heap.objectAt? ⟨m.method, i⟩ with
  | none => exact Acts.throw hs hm (.misstep hn (.unallocated ha))
  | some a =>
    have hp := hF.rule (.effect hn (.new ha)) hm
    have ho := hF.rule .held hp
    refine Acts.bind_of_eq (contextOf_eq hc) ?_
    refine Acts.bind (acts_contextId hs (hF.rule .objectContext ho)) ?_
    intro h t ht hh
    have hheap : ∃ b, setup.heap.object? a.id = some b := by
      rw [hset.heap] at ha ⊢
      exact ⟨a, (Heap.object?_of_objectAt? hset.valid ha).2⟩
    refine Acts.mono (acts_objectId ht.sound hh ho hheap) ?_
    intro k u _ hk
    exact ⟨a, rfl, hk⟩

theorem acts_callStatic (hset : setup.WellFormed) (hF : Closed setup entries F)
    (hs : s.Sound setup F) (hc : s.arena.contexts.get? c = some m.context) (hm : F (.reachable m))
    {d : Call} (hd : setup.program.stmt? ⟨m.method, i⟩ = some (.call d))
    (hstatic : d.isStatic = true) :
    Acts setup F 0 (callStatic setup c ⟨m.method, i⟩ d) s fun _ t =>
      ∃ callee, setup.program.resolveStatic d = .ok callee ∧
        t.Knows (.call .static ⟨m.context, ⟨m.method, i⟩⟩
          (setup.staticCallee m.context ⟨m.method, i⟩ callee)) := by
  unfold callStatic
  cases hr : setup.program.resolveStatic d with
  | error e => exact Acts.throw hs hm (.misstep hd (.dangling hstatic hr))
  | ok callee =>
    have hcall := hF.rule (.effect hd (.call hstatic hr)) hm
    have hreach := hF.rule .callee hcall
    have hmethod := hF.rule .occurs hreach
    have hkind : EdgeKind.ofMode d.mode = .static := by
      rw [of_decide_eq_true hstatic]
      rfl
    refine Acts.bind_of_eq (contextOf_eq hc) ?_
    refine Acts.bind (acts_contextId hs (hF.rule .methodContext hmethod)) ?_
    intro cc t ht hcc
    refine Acts.bind (acts_methodId ht.sound hcc hmethod) ?_
    intro j u hu hj
    have hc := hu.grows.arena.contexts _ _ (ht.grows.arena.contexts _ _ hc)
    refine Acts.bind (acts_siteId hu.sound hc (hF.rule .caller hcall)) ?_
    intro x v hv hx
    obtain ⟨method, hmethod⟩ := Program.method_of_resolveStatic hset.valid hr
    have hj := hv.grows.arena.method? hj
    rw [← hkind] at hcall ⊢
    refine Acts.mono (acts_connectCall hF hv.sound hx hj hd hmethod hcall) ?_
    intro _ w _ hw
    exact ⟨callee, rfl, hw⟩

/-- A statement whose one effect is a flow edge is wired by adding the edge. -/
theorem acts_wireFlow (hF : Closed setup entries F) (hs : s.Sound setup F) (hm : F (.reachable m))
    {stmt : Stmt} (hstmt : setup.program.stmt? ⟨m.method, i⟩ = some stmt) {p q : Pointer}
    {l l' : Location} (hp : s.arena.locate? p = some l) (hq : s.arena.locate? q = some l')
    (heffect : Effect setup m ⟨m.method, i⟩ stmt (.flow l l'))
    (honly : ∀ f, Effect setup m ⟨m.method, i⟩ stmt f → f = .flow l l')
    (hstep : ∀ e, ¬Misstep setup ⟨m.method, i⟩ stmt e) :
    Acts setup F 0 (connect p q) s fun _ t =>
      (∀ f, Effect setup m ⟨m.method, i⟩ stmt f → t.Knows f) ∧
        ∀ e, ¬Misstep setup ⟨m.method, i⟩ stmt e := by
  refine Acts.mono (acts_connect hF hs hp hq (hF.rule (.effect hstmt heffect) hm)) ?_
  intro _ t _ ht
  refine ⟨?_, hstep⟩
  intro f hf
  rw [honly f hf]
  exact ht

/-- Wiring a statement makes its effects known, if it can take effect. -/
theorem acts_wire (hset : setup.WellFormed) (hF : Closed setup entries F) (hs : s.Sound setup F)
    (hc : s.arena.contexts.get? c = some m.context) (hm : F (.reachable m)) {stmt : Stmt}
    (hstmt : setup.program.stmt? ⟨m.method, i⟩ = some stmt) :
    Acts setup F 0 (wire setup c ⟨m.method, i⟩ stmt) s fun _ t =>
      (∀ f, Effect setup m ⟨m.method, i⟩ stmt f → t.Knows f) ∧
        ∀ e, ¬Misstep setup ⟨m.method, i⟩ stmt e := by
  cases stmt with
  | new lhs ty =>
    refine Acts.bind (acts_allocate hset hF hs hc hm hstmt) ?_
    rintro k t ht ⟨a, ha, hk⟩
    have hp := hF.rule (.effect hstmt (.new ha)) hm
    have hc := ht.grows.arena.contexts _ _ hc
    refine Acts.bind (acts_pointerId ht.sound (locate?_var hc) (hF.rule .holder hp)) ?_
    intro p u hu hl
    refine Acts.mono (acts_arrive hu.sound hl (hu.grows.arena.object? hk) hp) ?_
    intro _ v _ hv
    constructor
    · intro f hf
      cases hf with
      | new ha' =>
        rw [ha] at ha'
        cases ha'
        exact hv
    · intro e he
      cases he with
      | unallocated ha' =>
        rw [ha] at ha'
        cases ha'
  | copy lhs rhs =>
    exact acts_wireFlow hF hs hm hstmt (locate?_var hc) (locate?_var hc) .copy
      (by rintro f ⟨⟩; rfl) nofun
  | loadStatic lhs f =>
    exact acts_wireFlow hF hs hm hstmt rfl (locate?_var hc) .loadStatic (by rintro f ⟨⟩; rfl) nofun
  | storeStatic f rhs =>
    exact acts_wireFlow hF hs hm hstmt (locate?_var hc) rfl .storeStatic (by rintro f ⟨⟩; rfl) nofun
  | call d =>
    by_cases hstatic : d.isStatic = true
    · simp only [wire, if_pos hstatic]
      refine Acts.mono (acts_callStatic hset hF hs hc hm hstmt hstatic) ?_
      rintro _ t _ ⟨callee, hr, hknown⟩
      constructor
      · intro f hf
        cases hf with
        | call _ hr' =>
          rw [hr] at hr'
          cases hr'
          exact hknown
      · intro e he
        cases he with
        | dangling _ hr' =>
          rw [hr] at hr'
          cases hr'
    · simp only [wire, if_neg hstatic]
      refine Acts.pure hs ⟨?_, ?_⟩
      · intro f hf
        cases hf with
        | call hd => exact absurd hd hstatic
      · intro e he
        cases he with
        | dangling hd => exact absurd hd hstatic
  | loadField | storeField | loadArray | storeArray => exact Acts.pure hs ⟨nofun, nofun⟩

/-- What is left to do for a method that has just been listed as reachable. -/
def wireBody (setup : Setup) (j : CSMethodId) : SolveM Unit := do
  let method ← methodOf j
  let d ← known (setup.program.method? method.method)
  d.body.zipIdx.forM fun (stmt, i) => wire setup method.context ⟨method.method, i⟩ stmt

/-- Wiring the body of a method covers its being reachable. -/
theorem acts_wireBody (hset : setup.WellFormed) (hF : Closed setup entries F)
    (hs : s.Sound setup F) {j : CSMethodId} (hj : s.arena.method? j = some m)
    (hm : F (.reachable m)) :
    Acts setup F 0 (wireBody setup j) s fun _ t => t.Covers setup (.reachable m) := by
  obtain ⟨c, hj', hc⟩ := Arena.method?_eq_some_iff.1 hj
  refine Acts.bind_of_eq (methodOf_eq hj') ?_
  cases hd : setup.program.method? m.method with
  | none => exact Acts.throw hs hm (.unknownMethod hd)
  | some d =>
    refine Acts.bind_of_eq (known_eq rfl) ?_
    have hstmt (stmt : Stmt) (i : Nat) : (stmt, i) ∈ d.body.zipIdx ↔
        setup.program.stmt? ⟨m.method, i⟩ = some stmt := by
      rw [List.mem_zipIdx_iff_getElem?, Program.stmt?, hd]
      rfl
    refine Acts.mono (Acts.forM_zero (L := fun y t =>
      (∀ f, Effect setup m ⟨m.method, y.2⟩ y.1 f → t.Knows f) ∧
        ∀ e, ¬Misstep setup ⟨m.method, y.2⟩ y.1 e) hs ?_ ?_) ?_
    · intro y t u n h hy
      exact ⟨fun f hf => h.knows (hy.1 f hf), hy.2⟩
    · rintro ⟨stmt, i⟩ hy t n ht
      have hc := ht.grows.arena.contexts _ _ hc
      exact acts_wire hset hF ht.sound hc hm ((hstmt stmt i).1 hy)
    · intro _ t ht hall
      constructor
      · intro f hf
        cases hf with
        | occurs => exact Or.inl ⟨j, ht.grows.arena.method? hj⟩
        | effect hs h => exact (hall _ ((hstmt _ _).2 hs)).1 _ h
      · intro e he
        cases he with
        | unknownMethod hm' =>
          rw [hd] at hm'
          cases hm'
        | misstep hs h => exact (hall _ ((hstmt _ _).2 hs)).2 _ h

end

/-! ## Objects new at a variable -/

section

variable {c : Context} {k : ContextId} {v : VarId} {o : HeapObject} {j : CSObjId}

theorem acts_wireUse (hF : Closed setup entries F) (hs : s.Sound setup F)
    {flow : Stmt → Option (Pointer × Pointer)} {site : Site} {stmt : Stmt} {p q : Pointer}
    {l l' : Location} (hstmt : setup.program.stmt? site = some stmt)
    (hflow : flow stmt = some (p, q)) (hp : s.arena.locate? p = some l)
    (hq : s.arena.locate? q = some l') (hfl : F (.flow l l')) :
    Acts setup F 0 (wireUse setup flow site) s fun _ t => t.Knows (.flow l l') := by
  unfold wireUse
  refine Acts.bind_of_eq (known_eq hstmt) ?_
  rw [hflow]
  exact acts_connect hF hs hp hq hfl

/-- Wiring uses of one kind makes known what the object at their base gives them access to. -/
theorem acts_wireUses (hF : Closed setup entries F) (hs : s.Sound setup F)
    (hv : F (.pointsTo (.var c v) o)) (flow : Stmt → Option (Pointer × Pointer)) (sites : List Site)
    (hsites : ∀ site ∈ sites, ∃ stmt p q l l', setup.program.stmt? site = some stmt ∧
      flow stmt = some (p, q) ∧ s.arena.locate? p = some l ∧ s.arena.locate? q = some l' ∧
      Access c v o stmt (.flow l l')) :
    Acts setup F 0 (sites.forM (wireUse setup flow)) s fun _ t => ∀ site ∈ sites, ∀ f,
      (∃ stmt, setup.program.stmt? site = some stmt ∧ Access c v o stmt f) → t.Knows f := by
  refine Acts.forM_zero hs (fun h hx f hf => h.knows (hx f hf)) ?_
  intro site hsite t n ht
  obtain ⟨stmt, p, q, l, l', hstmt, hflow, hp, hq, hacc⟩ := hsites site hsite
  have hp := ht.grows.arena.locate? hp
  have hq := ht.grows.arena.locate? hq
  have hfl := hF.rule (.access hstmt hacc) hv
  refine Acts.mono (acts_wireUse hF ht.sound hstmt hflow hp hq hfl) ?_
  rintro - u - hu f ⟨stmt', hstmt', hacc'⟩
  rw [hstmt] at hstmt'
  cases hstmt'
  rw [hacc'.unique hacc]
  exact hu

/-- Wiring the accesses of a variable makes known what an object there gives access to. -/
theorem acts_wireAccesses (hset : setup.WellFormed) (hF : Closed setup entries F)
    (hs : s.Sound setup F) (hk : s.arena.contexts.get? k = some c) (ho : s.arena.object? j = some o)
    (hv : F (.pointsTo (.var c v) o)) :
    Acts setup F 0 (wireAccesses setup k v j) s fun _ t => ∀ site stmt f,
      setup.program.stmt? site = some stmt → Access c v o stmt f → t.Knows f := by
  have hvar (t : State) (ht : Evolves setup F 0 s t) (w : VarId) :
      t.arena.locate? (.var k w) = some (.var c w) :=
    locate?_var (ht.grows.arena.contexts _ _ hk)
  have hfield (t : State) (ht : Evolves setup F 0 s t) (f : FieldId) :
      t.arena.locate? (.instanceField j f) = some (.instanceField o f) :=
    Arena.locate?_eq_instanceField_iff.2 ⟨j, rfl, ht.grows.arena.object? ho⟩
  have hslots (t : State) (ht : Evolves setup F 0 s t) :
      t.arena.locate? (.arraySlots j) = some (.arraySlots o) :=
    Arena.locate?_eq_arraySlots_iff.2 ⟨j, rfl, ht.grows.arena.object? ho⟩
  -- what one of the four loops has made known stays known in the later ones
  unfold wireAccesses
  refine Acts.bind (acts_wireUses hF hs hv _ _ ?_) ?_
  · intro site hsite
    obtain ⟨f, rhs, hstmt⟩ := hset.mem_storeFields.1 hsite
    exact ⟨_, _, _, _, _, hstmt, rfl, hvar s (.refl hs) rhs, hfield s (.refl hs) f, .storeField⟩
  intro _ t ht hstores
  refine Acts.bind (acts_wireUses hF ht.sound hv _ _ ?_) ?_
  · intro site hsite
    obtain ⟨lhs, f, hstmt⟩ := hset.mem_loadFields.1 hsite
    exact ⟨_, _, _, _, _, hstmt, rfl, hfield t ht f, hvar t ht lhs, .loadField⟩
  intro _ u hu hloads
  have hsu := ht.trans hu
  refine Acts.bind (acts_wireUses hF hu.sound hv _ _ ?_) ?_
  · intro site hsite
    obtain ⟨rhs, hstmt⟩ := hset.mem_storeArrays.1 hsite
    exact ⟨_, _, _, _, _, hstmt, rfl, hvar u hsu rhs, hslots u hsu, .storeArray⟩
  intro _ w hw harrays
  have hsw := hsu.trans hw
  refine Acts.mono (acts_wireUses hF hw.sound hv _ _ ?_) ?_
  · intro site hsite
    obtain ⟨lhs, hstmt⟩ := hset.mem_loadArrays.1 hsite
    exact ⟨_, _, _, _, _, hstmt, rfl, hslots w hsw, hvar w hsw lhs, .loadArray⟩
  intro _ z hz hlast site stmt f hstmt hacc
  cases hacc with
  | storeField =>
    have hmem := hset.mem_storeFields.2 ⟨_, _, hstmt⟩
    exact hz.knows (hw.knows (hu.knows (hstores site hmem _ ⟨_, hstmt, .storeField⟩)))
  | loadField =>
    have hmem := hset.mem_loadFields.2 ⟨_, _, hstmt⟩
    exact hz.knows (hw.knows (hloads site hmem _ ⟨_, hstmt, .loadField⟩))
  | storeArray =>
    have hmem := hset.mem_storeArrays.2 ⟨_, hstmt⟩
    exact hz.knows (harrays site hmem _ ⟨_, hstmt, .storeArray⟩)
  | loadArray =>
    have hmem := hset.mem_loadArrays.2 ⟨_, hstmt⟩
    exact hlast site hmem _ ⟨_, hstmt, .loadArray⟩

/-- Running a resolved call makes known what it invokes on the receiver, if the callee takes one. -/
theorem acts_invoke (hF : Closed setup entries F) (hs : s.Sound setup F)
    (hk : s.arena.contexts.get? k = some c) (ho : s.arena.object? j = some o)
    (hv : F (.pointsTo (.var c v) o)) {site : Site} {d : Call} {callee : MethodInstance}
    {method : MethodDecl} (hr : setup.Runs c site d v o callee)
    (hmethod : setup.program.method? callee.method = some method) :
    Acts setup F 0
      (do
        let calleeContext ← contextId callee.context
        let target ← methodId ⟨calleeContext, callee.method⟩
        let method ← known (setup.program.method? callee.method)
        match method.this with
        | none => throw (.program (.missingThis (setup.program.signatureOf method)))
        | some this =>
          let thisPointer ← pointerId (.var calleeContext this)
          arrive thisPointer (.singleton j)
          let site ← siteId ⟨k, site⟩
          connectCall setup (.ofMode d.mode) site target d) s
      fun _ t => (∀ f, Invocation setup c v o site f → t.Knows f) ∧
        ∀ e, ¬Refusal setup c v o site e := by
  have hcall := hF.rule (.invocation (.call hr)) hv
  have hcallee := hF.rule .occurs (hF.rule .callee hcall)
  refine Acts.bind (acts_contextId hs (hF.rule .methodContext hcallee)) ?_
  intro cc t ht hcc
  refine Acts.bind (acts_methodId ht.sound hcc hcallee) ?_
  intro target u hu htarget
  have hcc := hu.grows.arena.contexts _ _ hcc
  refine Acts.bind_of_eq (known_eq hmethod) ?_
  cases hthis : method.this with
  | none => exact Acts.throw hu.sound hv (.refusal (.missingThis hr hmethod hthis))
  | some this =>
    have hrecv := hF.rule (.invocation (.receiver hr hmethod hthis)) hv
    refine Acts.bind (acts_pointerId hu.sound (locate?_var hcc) (hF.rule .holder hrecv)) ?_
    intro p w hw hp
    have ho := hw.grows.arena.object? (hu.grows.arena.object? (ht.grows.arena.object? ho))
    refine Acts.bind (acts_arrive hw.sound hp ho hrecv) ?_
    intro _ y hy harrived
    have hsy := ht.trans (hu.trans (hw.trans hy))
    have hk := hsy.grows.arena.contexts _ _ hk
    refine Acts.bind (acts_siteId hy.sound hk (hF.rule .caller hcall)) ?_
    intro x z hz hx
    have htarget := hz.grows.arena.method? (hy.grows.arena.method? (hw.grows.arena.method? htarget))
    refine Acts.mono (acts_connectCall hF hz.sound hx htarget hr.1 hmethod hcall) ?_
    intro _ z' hz' hknown
    constructor
    · intro f hf
      cases hf with
      | call hr' =>
        obtain ⟨rfl, rfl⟩ := hr'.unique hr
        exact hknown
      | receiver hr' hmethod' hthis' =>
        obtain ⟨rfl, rfl⟩ := hr'.unique hr
        rw [hmethod] at hmethod'
        cases hmethod'
        rw [hthis] at hthis'
        cases hthis'
        exact hz'.knows (hz.knows harrived)
    · intro e he
      cases he with
      | missingThis hr' hmethod' hthis' =>
        obtain ⟨rfl, rfl⟩ := hr'.unique hr
        rw [hmethod] at hmethod'
        cases hmethod'
        rw [hthis] at hthis'
        cases hthis'

/-- Making a call makes known what it invokes on the receiver. -/
theorem acts_callOn (hset : setup.WellFormed) (hF : Closed setup entries F) (hs : s.Sound setup F)
    (hk : s.arena.contexts.get? k = some c) (ho : s.arena.object? j = some o)
    (hv : F (.pointsTo (.var c v) o)) {site : Site} (hsite : site ∈ (setup.program.uses v).calls) :
    Acts setup F (setup.missesAt o site) (callOn setup k j site) s fun _ t =>
      (∀ f, Invocation setup c v o site f → t.Knows f) ∧ ∀ e, ¬Refusal setup c v o site e := by
  obtain ⟨d, hd, hstatic, hrecv⟩ := hset.mem_calls.1 hsite
  obtain ⟨a, ha⟩ := hs.heap o ⟨j, ho⟩
  obtain ⟨h, hj, hh⟩ := Arena.object?_eq_some_iff.1 ho
  unfold callOn
  refine Acts.bind_of_eq (known_eq hd) ?_
  refine Acts.bind_of_eq (objectOf_eq hj) ?_
  refine Acts.bind_of_eq (known_eq ha) ?_
  cases hres : setup.program.resolve? a.ty d with
  | none =>
    have hmiss : setup.missesAt o site = 1 := by simp [Setup.missesAt, hd, ha, hres]
    -- without a target there is nothing to invoke and nothing to refuse
    have hnot : ∀ d' callee, ¬setup.Runs c site d' v o callee := by
      rintro d' callee ⟨hd', -, -, b, n, hb, hn, -⟩
      rw [hd] at hd'
      cases hd'
      rw [ha] at hb
      cases hb
      rw [hres] at hn
      cases hn
    rw [hmiss]
    refine show Evolves setup F 1 s s.countMiss ∧ _ from ⟨evolves_countMiss hs, ?_, ?_⟩
    · intro f hf
      cases hf with
      | call hr => exact absurd hr (hnot _ _)
      | receiver hr => exact absurd hr (hnot _ _)
    · intro e he
      cases he with
      | missingThis hr => exact absurd hr (hnot _ _)
  | some n =>
    have hmiss : setup.missesAt o site = 0 := by simp [Setup.missesAt, hd, ha, hres]
    have hr : setup.Runs c site d v o (setup.instanceCallee c site o a n) :=
      ⟨hd, hstatic, hrecv, a, n, ha, hres, rfl⟩
    obtain ⟨method, hmethod⟩ := Program.method_of_resolve? hset.valid hres
    rw [hmiss]
    refine Acts.bind_of_eq (contextOf_eq hk) ?_
    refine Acts.bind_of_eq (contextOf_eq hh) ?_
    exact acts_invoke hF hs hk ho hv hr hmethod

/-- Meeting an object that is new at a variable covers the variable's pointing to it. -/
theorem acts_meetObject (hset : setup.WellFormed) (hF : Closed setup entries F)
    (hs : s.Sound setup F) {i : PointerId} (hi : s.arena.pointers.get? i = some (.var k v))
    (hk : s.arena.contexts.get? k = some c) (ho : s.arena.object? j = some o)
    (hv : F (.pointsTo (.var c v) o)) :
    Acts setup F (setup.missCount (.var c v) o) (meetObject setup k v j) s fun _ t =>
      t.Covers setup (.pointsTo (.var c v) o) := by
  refine Acts.bind (acts_wireAccesses hset hF hs hk ho hv) ?_
  intro _ t ht haccesses
  have hk' := ht.grows.arena.contexts _ _ hk
  have ho' := ht.grows.arena.object? ho
  have hl : t.arena.location? i = some (.var c v) :=
    Arena.location?_eq_some_iff.2 ⟨_, ht.grows.arena.pointers _ _ hi, locate?_var hk'⟩
  have hsite : ∀ {site d callee}, setup.Runs c site d v o callee →
      site ∈ (setup.program.uses v).calls := fun hr =>
    hset.mem_calls.2 ⟨_, hr.1, hr.2.1, hr.2.2.1⟩
  refine Acts.mono (Acts.forM (L := fun site t =>
    (∀ f, Invocation setup c v o site f → t.Knows f) ∧ ∀ e, ¬Refusal setup c v o site e)
    ht.sound ?_ ?_) ?_
  · intro site t u n h hsite
    exact ⟨fun f hf => h.knows (hsite.1 f hf), hsite.2⟩
  · intro site hsite u n hu
    have hk := hu.grows.arena.contexts _ _ hk'
    exact acts_callOn hset hF hu.sound hk (hu.grows.arena.object? ho') hv hsite
  · intro _ u hu hcalls
    constructor
    · intro f hf
      cases hf with
      | holder => exact Or.inl ⟨i, hu.grows.arena.location? hl⟩
      | held => exact Or.inl ⟨j, hu.grows.arena.object? ho'⟩
      | access hstmt hacc => exact hu.knows (haccesses _ _ f hstmt hacc)
      | invocation hinv =>
        cases hinv with
        | call hr => exact (hcalls _ (hsite hr)).1 _ (.call hr)
        | receiver hr hm ht => exact (hcalls _ (hsite hr)).1 _ (.receiver hr hm ht)
    · intro e he
      cases he with
      | refusal h =>
        cases h with
        | missingThis hr hm ht => exact (hcalls _ (hsite hr)).2 _ (.missingThis hr hm ht)

end

end PointsTo.Solver
