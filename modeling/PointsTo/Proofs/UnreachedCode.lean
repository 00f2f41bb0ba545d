import PointsTo.Proofs.Correspondence
import PointsTo.Proofs.LeastSolution
import PointsTo.Proofs.Locality
import PointsTo.Proofs.ProgramGrowth

/-!
# Code that is not reached

Two programs with the same `Program.skeleton` differ in bodies, return variables and local variables
only, and they `Program.AgreesOn` some methods if not even those differ there. What an analysis derives
stays within the methods it reaches (`closed_rooted`): a variable that points somewhere belongs to one of
them, and so does a site that calls. So if the programs agree on these methods, the facts that correspond to
those of one program are closed under the rules of the other (`closed_mirrors`), and no run of the other
ends at one of them (`faultless_mirrors`). What the methods that are not reached hold has no influence,
fatal calls included (`related_of_agreesOn`).
-/

namespace PointsTo

/-! ## Programs that agree on some methods -/

/-- The method without its statements and its return variables. -/
def MethodDecl.header (d : MethodDecl) : MethodDecl := { d with body := [], returns := [] }

namespace Program

/-- The classes, fields and method headers of a program. -/
def skeleton (p : Program) : Program :=
  { p with methods := p.methods.map (·.header), vars := #[], entry := none }

theorem skeleton_extendedBy (p : Program) : p.skeleton.ExtendedBy p where
  classes := rfl
  fields := rfl
  rootClass := rfl
  vars h := nomatch h
  methodCount := (Array.size_map).symm
  method := by
    intro m d hd
    rw [method?, skeleton, Array.getElem?_map, Option.map_eq_some_iff] at hd
    obtain ⟨d', hd', rfl⟩ := hd
    exact ⟨d', hd', d'.body, d'.returns, rfl⟩

/-- The programs differ in bodies, return variables and local variables only, and not even in those of
the methods of `R`. -/
structure AgreesOn (R : MethodId → Prop) (p p' : Program) : Prop where
  skeleton : p'.skeleton = p.skeleton
  method : ∀ {m}, R m → p'.method? m = p.method? m
  var : ∀ {v x}, R x.method → (p'.var? v = some x ↔ p.var? v = some x)

namespace AgreesOn

variable {R S : MethodId → Prop} {p p' : Program}

theorem symm (h : p.AgreesOn R p') : p'.AgreesOn R p :=
  ⟨h.skeleton.symm, fun hm => (h.method hm).symm, fun hx => (h.var hx).symm⟩

theorem mono (h : p.AgreesOn R p') (hSR : ∀ m, S m → R m) : p.AgreesOn S p' :=
  ⟨h.skeleton, fun hm => h.method (hSR _ hm), fun hx => h.var (hSR _ hx)⟩

variable (h : p.AgreesOn R p')

include h

theorem stmt?_eq {site : Site} (hR : R site.method) : p'.stmt? site = p.stmt? site := by
  rw [stmt?, stmt?, h.method hR]

theorem resolveStatic_eq (d : Call) : p'.resolveStatic d = p.resolveStatic d := by
  rw [p'.skeleton_extendedBy.resolveStatic_eq, h.skeleton, p.skeleton_extendedBy.resolveStatic_eq]

theorem resolve?_eq (ty : TypeRef) (d : Call) : p'.resolve? ty d = p.resolve? ty d := by
  rw [p'.skeleton_extendedBy.resolve?_eq, h.skeleton, p.skeleton_extendedBy.resolve?_eq]

end AgreesOn

end Program

/-! ## What is derived stays within the methods that are reached -/

/-- The methods that are reachable by `G` under some context. -/
def Reached (G : Fact → Prop) (m : MethodId) : Prop := ∃ c, G (.reachable ⟨c, m⟩)

namespace Program

variable (p : Program) (R : MethodId → Prop)

/-- The methods of a fact belong to `R`: those it names, that of the site of a call, and that of the
variable that something arrives at. -/
def Rooted : Fact → Prop
  | .entry m | .reachable m => R m.method
  | .pointsTo (.var _ v) _ | .flow _ (.var _ v) => p.VarOf R v
  | .call _ x m => R x.site.method ∧ R m.method
  | _ => True

end Program

section

variable {p : Program} {R : MethodId → Prop} {selector : Selector} {entries : List MethodId}
  {G : Fact → Prop} {site : Site} {stmt : Stmt} {v : VarId} {f : Fact}

theorem Program.AgreesOn.varOf {p' : Program} (h : p.AgreesOn R p') (hv : p.VarOf R v) :
    p'.VarOf R v := by
  obtain ⟨x, hx, hm⟩ := hv
  exact ⟨x, (h.var hm).2 hx, hm⟩

theorem Program.rooted_iff_located : p.Rooted R f ↔ p.Located (fun m => R m.method) f := by
  cases f with
  | pointsTo l _ => cases l <;> exact Iff.rfl
  | flow _ l => cases l <;> exact Iff.rfl
  | _ => exact Iff.rfl

/-- The rules lead from methods that are reached to methods that are reached. -/
theorem closed_rooted (hp : p.validate = .ok ()) (hG : Closed (p.setup selector) entries G) :
    Closed (p.setup selector) entries fun f => G f ∧ p.Rooted (Reached G) f := by
  simp only [Program.rooted_iff_located]
  refine closed_located hp hG ?_ ?_
  · intro m hm
    exact ⟨_, hG.rule .entry (hG.entry m hm)⟩
  · intro kind c site receiver m _ hcall
    exact ⟨_, hG.rule .callee hcall⟩

end

/-! ## One program mirrors the other -/

section

variable {p p' : Program} (hp : p.validate = .ok ()) (hp' : p'.validate = .ok ())
  {R : MethodId → Prop} (hR : p.AgreesOn R p') {policy : ContextPolicy} {k heapK : Nat}

/-- The objects of two programs that are allocated at the same site. -/
def Program.Matches (p p' : Program) : ObjId → ObjId → Prop :=
  (Heap.ofProgram p).Matches (.ofProgram p')

include hp hp' hR

/-- A method of `R` allocates matching objects. -/
theorem exists_matching_allocation {site : Site} {lhs : VarId} {ty : TypeRef} (hm : R site.method)
    (hs : p.stmt? site = some (.new lhs ty)) {a' : AbstractObject}
    (ha' : (Heap.ofProgram p').objectAt? site = some a') :
    ∃ a, (Heap.ofProgram p).objectAt? site = some a ∧ p.Matches p' a.id a'.id := by
  obtain ⟨a, ha, hty⟩ := Heap.objectAt?_ofProgram hp hs
  obtain ⟨b, hb, hty'⟩ := Heap.objectAt?_ofProgram hp' ((hR.stmt?_eq hm).trans hs)
  rw [ha'] at hb
  cases hb
  obtain ⟨hsite, hobject⟩ := Heap.object?_of_objectAt? hp ha
  obtain ⟨hsite', hobject'⟩ := Heap.object?_of_objectAt? hp' ha'
  -- the containers are the classes of one and the same method
  obtain ⟨-, d, -, hd, -, hcontainer⟩ := Heap.allocated_of_object? hp hobject
  obtain ⟨-, d', -, hd', -, hcontainer'⟩ := Heap.allocated_of_object? hp' hobject'
  rw [hsite] at hd
  rw [hsite', hR.method hm, hd] at hd'
  cases hd'
  exact ⟨a, ha, a, a', hobject, hobject', hsite'.trans hsite.symm, hty'.trans hty.symm,
    hcontainer'.trans hcontainer.symm⟩

/-- What a statement of `R` does in one program it does in the other. -/
theorem exists_related_effect {m m' : MethodInstance} (hm : m.Related (p.Matches p') m')
    (hmR : R m.method) {i : Nat} {stmt : Stmt} {f' : Fact} (hs : p.stmt? ⟨m.method, i⟩ = some stmt)
    (he : Effect (p'.setup (policy.selector k heapK)) m' ⟨m.method, i⟩ stmt f') :
    ∃ f, Effect (p.setup (policy.selector k heapK)) m ⟨m.method, i⟩ stmt f ∧
      f.Related (p.Matches p') f' := by
  obtain ⟨hstatic, hheap, -⟩ := selector_related policy k heapK hm.context
  cases he with
  | new ha' =>
    obtain ⟨a, ha, hid⟩ := exists_matching_allocation hp hp' hR hmR hs ha'
    exact ⟨_, .new ha, .pointsTo (.var hm.context) ⟨hheap _ _, hid⟩⟩
  | copy => exact ⟨_, .copy, .flow (.var hm.context) (.var hm.context)⟩
  | loadStatic => exact ⟨_, .loadStatic, .flow .staticField (.var hm.context)⟩
  | storeStatic => exact ⟨_, .storeStatic, .flow (.var hm.context) .staticField⟩
  | call hd hc =>
    have hc : p.resolveStatic _ = .ok _ := (hR.resolveStatic_eq _).symm.trans hc
    exact ⟨_, .call hd hc, .call ⟨hm.context, rfl⟩ ⟨hstatic _ _, rfl⟩⟩

omit hp hp' hR in
/-- An access reaches related fields and arrays. -/
theorem exists_related_access {ρ : ObjId → ObjId → Prop} {c c' : Context} (hc : c.Related ρ c')
    {v : VarId} {o o' : HeapObject} (ho : o.Related ρ o') {stmt : Stmt} {f' : Fact}
    (h : Access c' v o' stmt f') : ∃ f, Access c v o stmt f ∧ f.Related ρ f' := by
  cases h with
  | storeField => exact ⟨_, .storeField, .flow (.var hc) (.instanceField ho)⟩
  | loadField => exact ⟨_, .loadField, .flow (.instanceField ho) (.var hc)⟩
  | storeArray => exact ⟨_, .storeArray, .flow (.var hc) (.arraySlots ho)⟩
  | loadArray => exact ⟨_, .loadArray, .flow (.arraySlots ho) (.var hc)⟩

/-- A call in `R` runs the same methods on related receivers. -/
theorem exists_related_runs {c c' : Context} (hc : c.Related (p.Matches p') c') {o o' : HeapObject}
    (ho : o.Related (p.Matches p') o') {site : Site} (hm : R site.method) {d : Call} {v : VarId}
    {callee' : MethodInstance}
    (hr : (p'.setup (policy.selector k heapK)).Runs c' site d v o' callee') :
    ∃ callee, (p.setup (policy.selector k heapK)).Runs c site d v o callee ∧
      callee.Related (p.Matches p') callee' := by
  obtain ⟨hs, hstatic, hv, a', m, ha', hresolve, rfl⟩ := hr
  obtain ⟨a, b, ha, hb, -, hty, hcontainer⟩ := ho.object
  obtain rfl : a' = b := Option.some.inj (ha'.symm.trans hb)
  have hid : p.Matches p' a.id a'.id := by
    rw [(Heap.allocated_of_object? hp ha).1, (Heap.allocated_of_object? hp' ha').1]
    exact ho.object
  have hresolve : p.resolve? a.ty d = some m := by
    rw [← hR.resolve?_eq, ← hty]
    exact hresolve
  obtain ⟨-, -, hreceiver⟩ := selector_related policy k heapK hc
  refine ⟨_, ⟨(hR.stmt?_eq hm).symm.trans hs, hstatic, hv, a, m, ha, hresolve, rfl⟩, ?_, rfl⟩
  exact hreceiver site _ _ a a' m ho.heapContext hid hcontainer

omit hp hp' in
theorem stmt?_of_related {ρ : ObjId → ObjId → Prop} {x x' : SiteInstance} (hx : x.Related ρ x')
    (hm : R x.site.method) {stmt : Stmt} (hs : p'.stmt? x'.site = some stmt) :
    p.stmt? x.site = some stmt := by
  rw [hx.site] at hs
  exact (hR.stmt?_eq hm).symm.trans hs

omit hp hp' in
theorem method?_of_related {ρ : ObjId → ObjId → Prop} {m m' : MethodInstance} (hm : m.Related ρ m')
    (hmR : R m.method) {d : Option MethodDecl} (hd : p'.method? m'.method = d) :
    p.method? m.method = d := by
  rw [hm.method] at hd
  exact (hR.method hmR).symm.trans hd

variable {entries : List MethodId} {G : Fact → Prop}
  (hG : Closed (p.setup (policy.selector k heapK)) entries G) (hroot : ∀ f, G f → p.Rooted R f)

include hG hroot

omit hp hp' hR in
/-- What a call runs belongs to `R`. -/
theorem method_of_runs {c : Context} {v : VarId} {o : HeapObject} {site : Site} {d : Call}
    {callee : MethodInstance} (hr : (p.setup (policy.selector k heapK)).Runs c site d v o callee)
    (hv : G (.pointsTo (.var c v) o)) : R callee.method :=
  hroot _ (hG.rule .callee (hG.rule (.invocation (.call hr)) hv))

/-- The facts that are related to those of one program are closed under the rules of the other. -/
theorem closed_mirrors : Closed (p'.setup (policy.selector k heapK)) entries
    (Mirrors (p.Matches p') G) where
  empty := ⟨_, hG.empty, .context .empty⟩
  entry m hm := by
    refine ⟨_, hG.entry m hm, .entry ⟨?_, rfl⟩⟩
    cases policy <;> exact .empty
  flow := by
    rintro l l' o ⟨f, hf, hflow⟩ ⟨g, hg, hpoints⟩
    cases hflow with
    | flow hl hr =>
      cases hpoints with
      | pointsTo hl' ho =>
        -- the edge starts where the object is, as sites have one object each
        rw [hl'.left_unique (Heap.leftUnique_matches hp) hl] at hg
        exact ⟨_, hG.flow hf hg, .pointsTo hr ho⟩
  rule := by
    rintro g' f' hr ⟨g, hg, hrel⟩
    cases hr with
    | objectContext =>
      cases hrel with
      | object ho => exact ⟨_, hG.rule .objectContext hg, .context ho.heapContext⟩
    | methodContext =>
      cases hrel with
      | method hm => exact ⟨_, hG.rule .methodContext hg, .context hm.context⟩
    | holder =>
      cases hrel with
      | pointsTo hl ho => exact ⟨_, hG.rule .holder hg, .location hl⟩
    | held =>
      cases hrel with
      | pointsTo hl ho => exact ⟨_, hG.rule .held hg, .object ho⟩
    | source =>
      cases hrel with
      | flow hl hr => exact ⟨_, hG.rule .source hg, .location hl⟩
    | target =>
      cases hrel with
      | flow hl hr => exact ⟨_, hG.rule .target hg, .location hr⟩
    | occurs =>
      cases hrel with
      | reachable hm => exact ⟨_, hG.rule .occurs hg, .method hm⟩
    | entry =>
      cases hrel with
      | entry hm => exact ⟨_, hG.rule .entry hg, .reachable hm⟩
    | @effect m' i stmt _ hs he =>
      cases hrel with
      | @reachable m _ hm =>
        have hmR : R m.method := hroot _ hg
        rw [hm.method] at hs he
        have hs := (hR.stmt?_eq hmR).symm.trans hs
        obtain ⟨f, hf, hrel⟩ := exists_related_effect hp hp' hR hm hmR hs he
        exact ⟨f, hG.rule (.effect hs hf) hg, hrel⟩
    | access hs ha =>
      cases hrel with
      | pointsTo hl ho =>
        cases hl with
        | var hc =>
          -- the accesses through a variable of `R` are the same in both programs
          have hv := hR.varOf (hroot _ hg)
          have hs := (hR.stmt?_eq (hv.method_of_stmt hp' hs ha.base_mem)).symm.trans hs
          obtain ⟨f, hf, hrel⟩ := exists_related_access hc ho ha
          exact ⟨f, hG.rule (.access hs hf) hg, hrel⟩
    | invocation hi =>
      cases hrel with
      | pointsTo hl ho =>
        cases hl with
        | var hc =>
          have hv := hR.varOf (hroot _ hg)
          cases hi with
          | call hruns =>
            have hsite := hv.method_of_runs hp' hruns
            obtain ⟨callee, hruns, hm⟩ := exists_related_runs hp hp' hR hc ho hsite hruns
            exact ⟨_, hG.rule (.invocation (.call hruns)) hg, .call ⟨hc, rfl⟩ hm⟩
          | receiver hruns hd ht =>
            have hsite := hv.method_of_runs hp' hruns
            obtain ⟨callee, hruns, hm⟩ := exists_related_runs hp hp' hR hc ho hsite hruns
            have hd := method?_of_related hR hm (method_of_runs hG hroot hruns hg) hd
            exact ⟨_, hG.rule (.invocation (.receiver hruns hd ht)) hg,
              .pointsTo (.var hm.context) ho⟩
    | caller =>
      cases hrel with
      | call hx hm => exact ⟨_, hG.rule .caller hg, .site hx⟩
    | callee =>
      cases hrel with
      | call hx hm => exact ⟨_, hG.rule .callee hg, .reachable hm⟩
    | argument hs hd ha =>
      cases hrel with
      | call hx hm =>
        obtain ⟨hxR, hmR⟩ := hroot _ hg
        have hs := stmt?_of_related hR hx hxR hs
        have hd := method?_of_related hR hm hmR hd
        exact ⟨_, hG.rule (.argument hs hd ha) hg, .flow (.var hx.context) (.var hm.context)⟩
    | result hs hr =>
      cases hrel with
      | call hx hm =>
        have hs := stmt?_of_related hR hx (hroot _ hg).1 hs
        exact ⟨_, hG.rule (.result hs hr) hg, .location (.var hx.context)⟩
    | returned hs hd hr hv =>
      cases hrel with
      | call hx hm =>
        obtain ⟨hxR, hmR⟩ := hroot _ hg
        have hs := stmt?_of_related hR hx hxR hs
        have hd := method?_of_related hR hm hmR hd
        exact ⟨_, hG.rule (.returned hs hd hr hv) hg, .flow (.var hm.context) (.var hx.context)⟩

/-- No run of the other program ends at a fact that is related to one at which no run of the first
ends. -/
theorem faultless_mirrors
    (hfault : ∀ f e, G f → ¬Fault (p.setup (policy.selector k heapK)) f e) {f' : Fact}
    {e : AnalysisError} (hf : Mirrors (p.Matches p') G f') :
    ¬Fault (p'.setup (policy.selector k heapK)) f' e := by
  obtain ⟨f, hf, hrel⟩ := hf
  intro he
  cases he with
  | unknownMethod hd =>
    cases hrel with
    | reachable hm =>
      exact hfault _ _ hf (.unknownMethod (method?_of_related hR hm (hroot _ hf) hd))
  | @misstep m' i stmt _ hs hmis =>
    cases hrel with
    | @reachable m _ hm =>
      have hmR : R m.method := hroot _ hf
      cases hmis with
      | unallocated ha =>
        obtain ⟨a, hsome, -⟩ := Heap.objectAt?_ofProgram hp' hs
        exact absurd (hsome.symm.trans ha) nofun
      | dangling hd hc =>
        rw [hm.method] at hs
        have hs := (hR.stmt?_eq hmR).symm.trans hs
        exact hfault _ _ hf (.misstep hs (.dangling hd ((hR.resolveStatic_eq _).symm.trans hc)))
  | refusal hrefuse =>
    cases hrel with
    | pointsTo hl ho =>
      cases hl with
      | var hc =>
        obtain ⟨hruns, hd, ht⟩ := hrefuse
        have hsite := (hR.varOf (hroot _ hf)).method_of_runs hp' hruns
        obtain ⟨callee, hruns, hm⟩ := exists_related_runs hp hp' hR hc ho hsite hruns
        have hd := method?_of_related hR hm (method_of_runs hG hroot hruns hf) hd
        exact hfault _ _ hf (.refusal (.missingThis hruns hd ht))
  | arity hs hd ha =>
    cases hrel with
    | call hx hm =>
      obtain ⟨hxR, hmR⟩ := hroot _ hf
      have hs := stmt?_of_related hR hx hxR hs
      exact hfault _ _ hf (.arity hs (method?_of_related hR hm hmR hd) ha)

end

/-! ## Two runs -/

open Solver

section

variable {p p' : Program} (hp : p.validate = .ok ()) (hp' : p'.validate = .ok ())
  {policy : ContextPolicy} {k heapK : Nat} {order order' : WorklistOrder} {entries : List MethodId}
  {n : Nat} {s : State}
  (hs : solve (p.setup (policy.selector k heapK)) n entries (.initial order) = .ok () s)
  (hR : p.AgreesOn (Reached s.Found) p')

include hp hs

theorem rooted_of_solve {f : Fact} (hf : s.Found f) : p.Rooted (Reached s.Found) f := by
  have hset : (p.setup (policy.selector k heapK)).WellFormed := Program.wellFormed_setup hp
  have hclosed := closed_rooted hp (outcome_of_solve hset hs).2.2.closed
  exact (closed_of_found hset hclosed hs hf).2

include hp' hR

/-- Whatever a run of the other program finds is related to something that is found. -/
theorem mirrors_of_solve {n' : Nat} {t : State}
    (ht : solve (p'.setup (policy.selector k heapK)) n' entries (.initial order') = .ok () t)
    {f' : Fact} (hf : t.Found f') : Mirrors (p.Matches p') s.Found f' := by
  have hcomplete := (outcome_of_solve (Program.wellFormed_setup hp) hs).2.2
  have hclosed := closed_mirrors hp hp' hR hcomplete.closed fun _ => rooted_of_solve hp hs
  exact closed_of_found (Program.wellFormed_setup hp') hclosed ht hf

/-- A run of the other program ends well. -/
theorem exists_solve_of_agreesOn {n' : Nat} (hn : p'.stepBound k heapK ≤ n') :
    ∃ t, solve (p'.setup (policy.selector k heapK)) n' entries (.initial order') = .ok () t := by
  have hcomplete := (outcome_of_solve (Program.wellFormed_setup hp) hs).2.2
  have hroot : ∀ f, s.Found f → p.Rooted (Reached s.Found) f := fun _ => rooted_of_solve hp hs
  exact exists_solve_of_faultless hp' (closed_mirrors hp hp' hR hcomplete.closed hroot)
    (fun _ _ => faultless_mirrors hp hp' hR hcomplete.closed hroot hcomplete.faultless)
    (ne_nil_of_solve hs) order' hn

end

/-- Code that is not reached has no influence. Let two checked programs differ only in the bodies, the
return variables and the local variables of methods that a run of the one does not reach. If that run ends
well, then so does a run of the other from the same entries, given fuel for as many steps as it may take,
and the two find the same facts: points-to facts, reachable methods, call edges and whatever else, with
every object named by its allocation site, also inside contexts. -/
theorem related_of_agreesOn {p p' : Program} (hp : p.validate = .ok ()) (hp' : p'.validate = .ok ())
    (policy : ContextPolicy) (k heapK : Nat) (order order' : WorklistOrder) (entries : List MethodId)
    (n : Nat) (s : State)
    (hs : solve (p.setup (policy.selector k heapK)) n entries (.initial order) = .ok () s)
    (hR : p.AgreesOn (fun m => ∃ c, s.Found (.reachable ⟨c, m⟩)) p') :
    (∀ n', p'.stepBound k heapK ≤ n' →
      ∃ t, solve (p'.setup (policy.selector k heapK)) n' entries (.initial order') = .ok () t) ∧
    ∀ n' t, solve (p'.setup (policy.selector k heapK)) n' entries (.initial order') = .ok () t →
      (∀ f, s.Found f → ∃ f', t.Found f' ∧
        f.Related (p.Matches p') f') ∧
      ∀ f', t.Found f' → ∃ f, s.Found f ∧
        f.Related (p.Matches p') f' := by
  refine ⟨fun n' hn => exists_solve_of_agreesOn hp hp' hs hR hn, ?_⟩
  intro n' t ht
  have hback : ∀ f', t.Found f' → Mirrors (p.Matches p') s.Found f' := fun f' =>
    mirrors_of_solve hp hp' hs hR ht
  refine ⟨?_, hback⟩
  intro f hf
  -- the methods that the other run reaches are reached here, so the programs agree on them as well
  have hR' : p'.AgreesOn (Reached t.Found) p := by
    refine hR.symm.mono ?_
    rintro m ⟨c, hm⟩
    obtain ⟨g, hg, hrel⟩ := hback _ hm
    cases hrel with
    | @reachable m' _ hm =>
      obtain rfl : m = m'.method := hm.method
      exact ⟨_, hg⟩
  obtain ⟨f', hf', hrel⟩ := mirrors_of_solve hp' hp ht hR' hs hf
  exact ⟨f', hf', hrel.symm Heap.Matches.symm⟩

namespace Sample

/-- Its first method is `A.helper(); return d;`, where `A` has no such method. It allocates nothing, which
makes the second method's object the first. -/
def rewritten : Program :=
  { program with
    methods := #[
      { main with
        returns := [5]
        body := [
          .call { mode := .static, target := ⟨0, "void helper()"⟩, receiver := none, args := [], result := none }] },
      looping]
    vars := program.vars ++ #[⟨5, "d", 0⟩] }

theorem agreesOn_rewritten {R : MethodId → Prop} (hR : ∀ m, R m → m = 1) :
    recursive.AgreesOn R rewritten where
  skeleton := by
    simp [Program.skeleton, rewritten, recursive, MethodDecl.header]
  method hm := by
    rw [hR _ hm]
    rfl
  var {v x} hx := by
    show (program.vars.push ⟨5, "d", 0⟩)[v]? = some x ↔ program.vars[v]? = some x
    rw [Array.getElem?_push]
    split
    · -- the new variable is one of the first method
      rename_i hv
      have hnone : program.vars[v]? = none := by rw [hv]; rfl
      have hne : (⟨5, "d", 0⟩ : VarDecl) ≠ x := by
        rintro rfl
        exact absurd (hR _ hx) (by decide)
      simp [hnone, hne]
    · rfl

end Sample

/-- The second method is analysed alone. The contexts of its calls hold an object of which the number
depends on the first method. -/
theorem related_of_agreesOn_rewritten :
    Sample.recursive.validate = .ok () ∧ Sample.rewritten.validate = .ok () ∧ ∃ s,
    solve (Sample.recursive.setup (ContextPolicy.object.selector 2 1)) 20 [1] (.initial .fifo) =
      .ok () s ∧
    Sample.recursive.AgreesOn (fun m => ∃ c, s.Found (.reachable ⟨c, m⟩)) Sample.rewritten ∧
    s.Found (.reachable ⟨.singleton (.object 1), 1⟩) ∧ ∃ t,
    solve (Sample.rewritten.setup (ContextPolicy.object.selector 2 1)) (Sample.rewritten.stepBound 2 1)
      [1] (.initial .lifo) = .ok () t ∧
    t.Found (.reachable ⟨.singleton (.object 0), 1⟩) := by
  have hp : Sample.recursive.validate = .ok () := by rfl
  have hp' : Sample.rewritten.validate = .ok () := by rfl
  obtain ⟨⟨⟩, s, hs, hone, hctx⟩ := Ends.exists_ok (by decide +kernel :
    Ends (solve (Sample.recursive.setup (ContextPolicy.object.selector 2 1)) 20 [1])
      (.initial .fifo)
      (fun _ s => (∀ i ∈ s.callGraph.reachable, (s.arena.method? i).all (·.method = 1) = true) ∧
        ∃ i ∈ s.callGraph.reachable, s.arena.method? i = some ⟨.singleton (.object 1), 1⟩)
      fun _ _ => False)
  have hreached : ∀ m, (∃ c, s.Found (.reachable ⟨c, m⟩)) → m = 1 := by
    rintro m ⟨c, i, hi, hm⟩
    have h := hone i hi
    rw [hm] at h
    exact of_decide_eq_true h
  have hagree := Sample.agreesOn_rewritten hreached
  obtain ⟨hends, hsame⟩ := related_of_agreesOn hp hp' .object 2 1 .fifo .lifo [1] 20 s hs hagree
  obtain ⟨t, ht⟩ := hends _ (Nat.le_refl _)
  refine ⟨hp, hp', s, hs, hagree, hctx, t, ht, ?_⟩
  obtain ⟨f', hf', hrel⟩ := (hsame _ t ht).1 (.reachable ⟨.singleton (.object 1), 1⟩) hctx
  cases hrel with
  | @reachable _ m' hm =>
    obtain ⟨⟨es⟩, m⟩ := m'
    obtain ⟨hes, hmethod⟩ := hm
    obtain rfl : m = 1 := hmethod
    obtain ⟨_, _, he, hnil, rfl⟩ := List.forall₂_cons_left_iff.1 hes
    obtain rfl := List.forall₂_nil_left_iff.1 hnil
    cases he with
    | @object _ j hj =>
      obtain ⟨-, a', -, ha', -⟩ := hj
      -- there is one object in the other program
      have hlt : j < 1 := Heap.object_lt ha'
      obtain rfl : j = 0 := Nat.lt_one_iff.1 hlt
      exact hf'

end PointsTo
