import PointsTo.Proofs.HierarchyGraph
import PointsTo.Proofs.LeastSolution

/-!
# An analysis stays within the call graph of the hierarchy

The hierarchy graph asks which classes stand below the one named at a call, an analysis which objects
arrive at the receiver. If every object that arrives is of a class below the one named there
(`Solution.Typed`), then whatever the analysis calls the graph has an edge for. The bound is carried
through the rules as a family of facts (`Bounded`): besides methods and call edges it follows the
variables that are pointed to, since what makes a call run is a fact about its receiver, and a receiver
belongs to the method in which the call stands.
-/

namespace PointsTo

/-- The target is chosen by the class of the receiver. -/
def Call.Dispatches (d : Call) : Prop := d.mode = .virtual ∨ d.mode = .interface ∨ d.mode = .dynamic

/-- Every object that arrives at the receiver of a dispatching call is of a class below the one named
at the call. An array counts as an object of the root class, if there is one. -/
def Solution.Typed (s : Solution) (p : Program) : Prop :=
  ∀ site d v o a c, p.stmt? site = some (.call d) → d.Dispatches → d.receiver = some v →
    o ∈ s.varPointsTo v → s.heap.object? o = some a → p.dispatchClass? a.ty = some c →
      p.isSubtype c d.target.owner = true

namespace Program

variable {p : Program} {site : Site} {d : Call} {m : MethodId} {ts : IdSet}

/-! ## Targets of one call -/

theorem mem_targets_of_resolveStatic (hts : p.indexed.targets d = .ok ts) (hd : d.isStatic = true)
    (hm : p.resolveStatic d = .ok m) : m ∈ ts := by
  have hmode : d.mode = .static := by simpa [Call.isStatic] using hd
  have hm' : p.indexed.resolveStatic d = .ok m := hm
  simp only [IndexedProgram.targets, hmode, hm', bind, Except.bind, pure, Except.pure,
    Except.ok.injEq] at hts
  simp [← hts]

/-- A method that an object of a class below the one named runs is found in the classes below that. -/
theorem mem_targets_of_resolve? (hp : p.validate = .ok ()) (hs : p.stmt? site = some (.call d))
    (hts : p.indexed.targets d = .ok ts) (hd : d.isStatic = false) {ty : TypeRef}
    (hm : p.resolve? ty d = some m)
    (htyped : d.Dispatches → ∀ c, p.dispatchClass? ty = some c → p.isSubtype c d.target.owner = true) :
    m ∈ ts := by
  have howner : d.target.owner < p.classes.size := by
    obtain ⟨decl, -, hcheck⟩ := checkStmt_of_validate hp hs
    simp only [checkStmt, andThen_eq_ok_iff, require_eq_ok_iff] at hcheck
    simpa using hcheck.1
  have hbelow : d.Dispatches → ∀ c, p.dispatchClass? ty = some c →
      p.dispatch c d.target.subsignature = some m →
      m ∈ (p.indexed.subtypes d.target.owner).filterMap (p.dispatch · d.target.subsignature) :=
    fun hmode c hc hrun => List.mem_filterMap.2
      ⟨c, mem_subtypes_of_isSubtype hp howner (htyped hmode c hc), hrun⟩
  rw [IndexedProgram.targets] at hts
  rw [resolve?] at hm
  cases hmode : d.mode <;> simp only [hmode, pure, Except.pure, Except.ok.injEq] at hts hm
  case static => simp [Call.isStatic, hmode] at hd
  case special =>
    rw [← hts, IdSet.mem_ofList]
    exact Option.mem_toList.2 hm
  all_goals
    obtain ⟨c, hc, hrun⟩ := Option.bind_eq_some_iff.1 hm
    rw [← hts, IdSet.mem_ofList]
    exact hbelow (by simp [Call.Dispatches, hmode]) c hc hrun

end Program

/-! ## The bound as a family of facts -/

section

variable (p : Program) (g : CallGraph Site MethodId)

/-- The method of a variable is reachable in the graph. -/
def Owned (v : VarId) : Prop := ∀ x, p.var? v = some x → x.method ∈ g.reachable

/-- The graph has the methods and the call edges of a fact, and the methods of the variables that
something arrives at by it. -/
def Bounded : Fact → Prop
  | .entry m => m.method ∈ g.reachable
  | .reachable m => m.method ∈ g.reachable
  | .pointsTo (.var _ v) _ => Owned p g v
  | .flow _ (.var _ v) => Owned p g v
  | .call kind x m => x.site.method ∈ g.reachable ∧ m.method ∈ g.reachable ∧
      ⟨kind, x.site, m.method⟩ ∈ g.edges
  | _ => True

end

section

variable {p : Program} {g : CallGraph Site MethodId} {selector : Selector} {entries : List MethodId}
  {s : Solution} {m : MethodInstance} {site : Site} {stmt : Stmt} {f : Fact} {c : Context} {v : VarId}
  {o : HeapObject}

theorem owned_of_mentioned (hp : p.validate = .ok ()) {n : MethodId} {decl : MethodDecl}
    (hn : n ∈ g.reachable) (hd : p.method? n = some decl) (hv : v ∈ Program.mentionedVars decl) :
    Owned p g v := by
  intro x hx
  obtain ⟨y, hy, rfl⟩ := Program.var_of_mentioned hp hd hv
  rw [hx] at hy
  cases hy
  exact hn

theorem owned_of_stmt (hp : p.validate = .ok ()) (hm : site.method ∈ g.reachable)
    (hs : p.stmt? site = some stmt) (hv : v ∈ stmt.vars) : Owned p g v := by
  obtain ⟨decl, hd, hmem⟩ := Program.mentioned_of_stmt? hs hv
  exact owned_of_mentioned hp hm hd hmem

/-- A statement that mentions an owned variable stands in a reachable method. -/
theorem Owned.method_mem (h : Owned p g v) (hp : p.validate = .ok ())
    (hs : p.stmt? site = some stmt) (hv : v ∈ stmt.vars) : site.method ∈ g.reachable := by
  obtain ⟨x, hx, hm⟩ := Program.var_of_stmt hp hs hv
  exact hm ▸ h x hx

variable (hp : p.validate = .ok ()) (hg : p.indexed.HierarchyClosed entries g)

include hp hg

/-- The effects of a statement in a reachable method are bounded. -/
theorem bounded_of_effect (hm : m.method ∈ g.reachable) {i : Nat}
    (hs : p.stmt? ⟨m.method, i⟩ = some stmt)
    (he : Effect (p.setup selector) m ⟨m.method, i⟩ stmt f) : Bounded p g f := by
  cases he with
  | new | copy | loadStatic => exact owned_of_stmt hp hm hs (by simp [Stmt.vars])
  | storeStatic => trivial
  | call hd hc =>
    obtain ⟨ts, hts, htargets⟩ := hg.calls _ _ hs hm
    obtain ⟨hreach, hedge⟩ := htargets _ (Program.mem_targets_of_resolveStatic hts hd hc)
    rw [show _ = CallMode.static from of_decide_eq_true hd] at hedge
    exact ⟨hm, hreach, hedge⟩

omit hg in
theorem bounded_of_access (hv : Owned p g v) (hs : p.stmt? site = some stmt)
    (ha : Access c v o stmt f) : Bounded p g f := by
  cases ha with
  | storeField | storeArray => trivial
  | loadField | loadArray =>
    have hm := hv.method_mem hp hs (by simp [Stmt.vars])
    exact owned_of_stmt hp hm hs (by simp [Stmt.vars])

/-- A call that runs on a well-typed receiver has its edge. -/
theorem bounded_of_runs (hw : s.state.WellFormed) (hheap : s.heap = .ofProgram p) (htyped : s.Typed p)
    (hv : Owned p g v) (ho : s.state.Found (.pointsTo (.var c v) o)) {d : Call}
    (hr : (p.setup selector).Runs c site d v o m) :
    Bounded p g (.call (.ofMode d.mode) ⟨c, site⟩ m) := by
  obtain ⟨hs, hd, hreceiver, a, n, ha, hn, rfl⟩ := hr
  have hm : site.method ∈ g.reachable :=
    hv.method_mem hp hs (by simp [Stmt.vars, Call.vars, hreceiver])
  obtain ⟨ts, hts, htargets⟩ := hg.calls _ _ hs hm
  have hmem : n ∈ ts := by
    refine Program.mem_targets_of_resolve? hp hs hts hd hn fun hdisp cls hcls => ?_
    have hpts : o.object ∈ s.varPointsTo v := (Solution.mem_pointsTo_iff hw).2 ⟨_, _, rfl, ho⟩
    exact htyped site d v o.object a cls hs hdisp hreceiver hpts (hheap ▸ ha) hcls
  exact ⟨hm, htargets n hmem⟩

/-- What the analysis finds and the graph bounds is closed under the rules. -/
theorem closed_bounded {methods : List MethodId} (hw : s.state.WellFormed)
    (hheap : s.heap = .ofProgram p) (htyped : s.Typed p)
    (hfound : Closed (p.setup selector) methods s.state.Found)
    (hmethods : ∀ m ∈ methods, m ∈ entries) :
    Closed (p.setup selector) methods fun f => s.state.Found f ∧ Bounded p g f where
  empty := ⟨hfound.empty, trivial⟩
  entry m hm := ⟨hfound.entry m hm, hg.entries m (hmethods m hm)⟩
  flow {l l' o} hf ho := by
    refine ⟨hfound.flow hf.1 ho.1, ?_⟩
    cases l' with
    | var c v => exact hf.2
    | _ => trivial
  rule := by
    rintro g' f hr ⟨hknown, hb⟩
    refine ⟨hfound.rule hr hknown, ?_⟩
    cases hr with
    | objectContext | methodContext | holder | held | source | target | occurs | caller | result =>
      trivial
    | entry => exact hb
    | callee => exact hb.2.1
    | effect hs he => exact bounded_of_effect hp hg hb hs he
    | access hs ha => exact bounded_of_access hp hb hs ha
    | invocation hi =>
      cases hi with
      | call hruns => exact bounded_of_runs hp hg hw hheap htyped hb hknown hruns
      | receiver hruns hm ht =>
        have hcall := bounded_of_runs hp hg hw hheap htyped hb hknown hruns
        exact owned_of_mentioned hp hcall.2.1 hm (by simp [Program.mentionedVars, ht])
    | argument hs hm ha =>
      exact owned_of_mentioned hp hb.2.1 hm (by simp [Program.mentionedVars, (List.of_mem_zip ha).2])
    | returned hs hm hr hv =>
      exact owned_of_stmt hp hb.1 hs (by simp [Stmt.vars, Call.vars, hr])

end

/-- The call graph of an analysis lies within that of the hierarchy: every call edge without contexts is
an edge there, of the same kind, and every reachable method is reachable there, for every configuration
and every selector, if the graph starts from the analysed entries and receivers are well typed. -/
theorem within_hierarchyGraph {c : Config} {custom : Option Selector} {p : Program} {s : Solution}
    {entries more : List MethodId} {g : CallGraph Site MethodId}
    (h : analyze c custom p.indexed = .ok s) (hentries : entryMethods c p.indexed = .ok entries)
    (hg : p.indexed.hierarchyGraph more = .ok g)
    (hmore : ∀ m ∈ entries, m ∈ p.entry.toList ++ more) (htyped : s.Typed p) :
    (∀ e ∈ s.callGraph.edges, e ∈ g.edges) ∧ ∀ m ∈ s.reachableMethods, m ∈ g.reachable := by
  obtain ⟨hp, hheap, entries', hentries', hsolve⟩ := solve_of_analyze h
  rw [hentries] at hentries'
  cases hentries'
  obtain ⟨hsound, -, hcomplete⟩ := Solver.outcome_of_solve (Program.wellFormed_setup hp) hsolve
  have hbounded : ∀ f, s.state.Found f → Bounded p g f := by
    intro f hf
    have hclosed := closed_bounded hp (IndexedProgram.closed_hierarchyGraph hg) hsound.wellFormed hheap
      htyped hcomplete.closed hmore
    exact (hclosed.of_derivable (hsound.knows f (Or.inl hf))).2
  constructor
  · intro e he
    obtain ⟨x, y, hcall⟩ := (Solution.mem_callGraph_edges_iff hsound).1 he
    exact (hbounded _ hcall).2.2
  · intro m hm
    obtain ⟨x, hreach⟩ := (Solution.mem_reachableMethods_iff hsound.wellFormed).1 hm
    exact hbounded _ hreach

namespace Sample

/-- `class A { void m() {} static void main() { A b = new B; b.m(); } }` and
`class B extends A { void m() {} }` -/
def overriding : Program where
  classes := #[{ ClassDecl.plain 0 "A" with methods := .ofList [("void m()", 1), ("void main()", 0)] },
    { ClassDecl.plain 1 "B" with superclass := some 0, methods := .ofList [("void m()", 2)] }]
  fields := #[]
  methods := #[
    { main with body := [
        .new 0 (.ofClass 1),
        .call { mode := .virtual, target := ⟨0, "void m()"⟩, receiver := some 0, args := [],
                result := none }] },
    { identity with subsignature := "void m()", this := some 1, params := [], returns := [] },
    { identity with id := 2, owner := 1, subsignature := "void m()", this := some 2, params := [],
                    returns := [] }]
  vars := #[⟨0, "b", 0⟩, ⟨1, "this", 1⟩, ⟨2, "this", 2⟩]
  entry := some 0
  rootClass := none

/-- Whatever its analysis finds is well typed: every call names the class above all others. -/
theorem typed_overriding {s : Solution} (hheap : s.heap = .ofProgram overriding) :
    s.Typed overriding := by
  rintro site d v o a c hs - - - ha hc
  have hp : overriding.validate = .ok () := by rfl
  have howner : ∀ x ∈ overriding.methods.toList.flatMap (·.sites), ∀ e ∈ x.2.call?,
      e.target.owner = 0 := by decide
  have hbelow : ∀ x ∈ (Heap.ofProgram overriding).objects.toList,
      ∀ cls ∈ overriding.dispatchClass? x.ty, overriding.isSubtype cls 0 = true := by decide
  obtain ⟨decl, hd, hsites⟩ := (Program.mem_sites_iff_stmt? hp).2 hs
  rw [howner (site, .call d) (List.mem_flatMap.2 ⟨decl, hd, hsites⟩) d rfl]
  rw [hheap] at ha
  exact hbelow a (List.mem_of_getElem? (by simpa [Heap.object?] using ha)) c hc

end Sample

/-- The analysis knows that `b` holds a `B` and has one call edge; the hierarchy has two. -/
theorem within_hierarchyGraph_overriding : ∃ s g,
    analyze .standard none Sample.overriding.indexed = .ok s ∧
      entryMethods .standard Sample.overriding.indexed = .ok [0] ∧
      Sample.overriding.indexed.hierarchyGraph [] = .ok g ∧ s.Typed Sample.overriding ∧
      s.callGraph.edges = [⟨.virtual, ⟨0, 1⟩, 2⟩] ∧ g.edges.length = 2 ∧
      (∀ e ∈ s.callGraph.edges, e ∈ g.edges) ∧ ∀ m ∈ s.reachableMethods, m ∈ g.reachable := by
  obtain ⟨s, hs, hone⟩ := exists_ok_of_any (by decide +kernel :
    (analyze .standard none Sample.overriding.indexed).toOption.any
      (·.callGraph.edges = [⟨.virtual, ⟨0, 1⟩, 2⟩]) = true)
  obtain ⟨g, hg, htwo⟩ := exists_ok_of_any (by decide +kernel :
    (Sample.overriding.indexed.hierarchyGraph []).toOption.any (·.edges.length = 2) = true)
  have htyped := Sample.typed_overriding (solve_of_analyze hs).2.1
  have hentries : entryMethods .standard Sample.overriding.indexed = .ok [0] := by rfl
  exact ⟨s, g, hs, hentries, hg, htyped, of_decide_eq_true hone, of_decide_eq_true htwo,
    within_hierarchyGraph hs hentries hg (by decide) htyped⟩

end PointsTo
