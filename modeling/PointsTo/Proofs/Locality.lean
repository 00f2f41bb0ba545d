import PointsTo.Proofs.Validity

/-!
# Facts belong to method instances

A fact about a variable is one about the method that has the variable, under the same context, and a call
stands in a method and runs one. So a property of method instances that entries have, and that calls hand on
from the instance where they stand to the one they run, is a property of all the instances that facts belong
to (`closed_located`), whatever the selector. Likewise objects come from nothing but allocations, and an
allocation belongs to the method instance that makes it (`closed_placed`).
-/

namespace PointsTo

namespace Program

variable (p : Program)

/-- The variable belongs to a method of `R`. -/
def VarOf (R : MethodId → Prop) (v : VarId) : Prop := ∃ x, p.var? v = some x ∧ R x.method

/-- The method instances of a fact have the property `R`: those it names, that of the site of a call, and
that of the variable that something arrives at. -/
def Located (R : MethodInstance → Prop) : Fact → Prop
  | .entry m | .reachable m => R m
  | .pointsTo (.var c v) _ | .flow _ (.var c v) => p.VarOf (fun m => R ⟨c, m⟩) v
  | .call _ x m => R ⟨x.context, x.site.method⟩ ∧ R m
  | _ => True

end Program

/-- The object comes from an allocation in a reachable method, and its heap context from the context of that
method. -/
def Setup.Allocated (setup : Setup) (G : Fact → Prop) (o : HeapObject) : Prop :=
  ∃ a c, setup.heap.object? o.object = some a ∧ G (.reachable ⟨c, a.site.method⟩) ∧
    o.heapContext = setup.selector.heapContext c a

/-- The objects of a fact come from allocations in reachable methods. -/
def Setup.Placed (setup : Setup) (G : Fact → Prop) : Fact → Prop
  | .object o | .pointsTo _ o => setup.Allocated G o
  | _ => True

section

variable {p : Program} (hp : p.validate = .ok ()) {R : MethodId → Prop} {site : Site} {stmt : Stmt}
  {v : VarId}

include hp

theorem Program.varOf_of_mentioned {m : MethodId} {d : MethodDecl} (hm : R m) (hd : p.method? m = some d)
    (hv : v ∈ mentionedVars d) : p.VarOf R v := by
  obtain ⟨x, hx, rfl⟩ := var_of_mentioned hp hd hv
  exact ⟨x, hx, hm⟩

theorem Program.varOf_of_stmt (hm : R site.method) (hs : p.stmt? site = some stmt) (hv : v ∈ stmt.vars) :
    p.VarOf R v := by
  obtain ⟨d, hd, hmem⟩ := mentioned_of_stmt? hs hv
  exact varOf_of_mentioned hp hm hd hmem

/-- A statement that mentions a variable of `R` stands in a method of `R`. -/
theorem Program.VarOf.method_of_stmt (h : p.VarOf R v) (hs : p.stmt? site = some stmt)
    (hv : v ∈ stmt.vars) : R site.method := by
  obtain ⟨x, hx, hm⟩ := h
  obtain ⟨y, hy, hsite⟩ := var_of_stmt hp hs hv
  rw [hx] at hy
  cases hy
  exact hsite ▸ hm

omit hp in
theorem Access.base_mem {c : Context} {o : HeapObject} {f : Fact} (h : Access c v o stmt f) :
    v ∈ stmt.vars := by
  cases h <;> simp [Stmt.vars]

/-- A call on a variable of `R` stands in a method of `R`. -/
theorem Program.VarOf.method_of_runs {selector : Selector} (h : p.VarOf R v) {c : Context} {d : Call}
    {o : HeapObject} {callee : MethodInstance} (hr : (p.setup selector).Runs c site d v o callee) :
    R site.method := by
  obtain ⟨hs, -, hreceiver, -⟩ := hr
  exact h.method_of_stmt hp hs (by simp [Stmt.vars, Call.vars, hreceiver])

end

section

variable {p : Program} {R : MethodInstance → Prop} {selector : Selector} {entries : List MethodId}
  {G : Fact → Prop}

/-- A property of entries that calls hand on belongs to all method instances of the facts that are
derived. -/
theorem closed_located (hp : p.validate = .ok ()) (hG : Closed (p.setup selector) entries G)
    (hentry : ∀ m ∈ entries, R ⟨selector.entryContext, m⟩)
    (hcall : ∀ kind c site receiver m, R ⟨c, site.method⟩ →
      G (.call kind ⟨c, site⟩ ⟨selector.calleeContext c site receiver m, m⟩) →
      R ⟨selector.calleeContext c site receiver m, m⟩) :
    Closed (p.setup selector) entries fun f => G f ∧ p.Located R f where
  empty := ⟨hG.empty, trivial⟩
  entry m hm := ⟨hG.entry m hm, hentry m hm⟩
  flow {l l' o} hf ho := by
    refine ⟨hG.flow hf.1 ho.1, ?_⟩
    cases l' with
    | var c v => exact hf.2
    | _ => trivial
  rule := by
    rintro g f hr ⟨hg, hlocated⟩
    have hf : G f := hG.rule hr hg
    refine ⟨hf, ?_⟩
    have hmentioned : ∀ {m : MethodInstance} {d v}, R m → p.method? m.method = some d →
        v ∈ Program.mentionedVars d → p.VarOf (fun n => R ⟨m.context, n⟩) v :=
      fun hm hd hv => Program.varOf_of_mentioned hp hm hd hv
    have hstmt : ∀ {c site stmt v}, R ⟨c, site.method⟩ → p.stmt? site = some stmt → v ∈ stmt.vars →
        p.VarOf (fun n => R ⟨c, n⟩) v :=
      fun hm hs hv => Program.varOf_of_stmt hp hm hs hv
    -- what a call runs on a receiver: the caller is the method that has the receiver variable
    have hruns : ∀ {c site d v o callee}, (p.setup selector).Runs c site d v o callee →
        G (.pointsTo (.var c v) o) → p.VarOf (fun n => R ⟨c, n⟩) v →
        R ⟨c, site.method⟩ ∧ R callee := by
      intro c site d v o callee hruns hv hvar
      have hcaller : R ⟨c, site.method⟩ := hvar.method_of_runs hp hruns
      have hedge := hG.rule (.invocation (.call hruns)) hv
      obtain ⟨-, -, -, a, m, -, -, rfl⟩ := hruns
      exact ⟨hcaller, hcall _ c site _ m hcaller hedge⟩
    cases hr with
    | objectContext | methodContext | holder | held | source | target | occurs | caller | result =>
      trivial
    | entry => exact hlocated
    | callee => exact hlocated.2
    | @effect m i stmt _ hs he =>
      have hm : R ⟨m.context, m.method⟩ := hlocated
      cases he with
      | new | copy | loadStatic => exact hstmt hm hs (by simp [Stmt.vars])
      | storeStatic => trivial
      | call => exact ⟨hm, hcall _ _ ⟨m.method, i⟩ none _ hm hf⟩
    | @access c v o site stmt _ hs ha =>
      have hvar : p.VarOf (fun n => R ⟨c, n⟩) v := hlocated
      have hcaller : R ⟨c, site.method⟩ := hvar.method_of_stmt hp hs ha.base_mem
      cases ha with
      | storeField | storeArray => trivial
      | loadField | loadArray => exact hstmt hcaller hs (by simp [Stmt.vars])
    | invocation hi =>
      cases hi with
      | call h => exact hruns h hg hlocated
      | receiver h hm ht =>
        exact hmentioned (hruns h hg hlocated).2 hm (by simp [Program.mentionedVars, ht])
    | argument hs hm ha =>
      exact hmentioned hlocated.2 hm (by simp [Program.mentionedVars, (List.of_mem_zip ha).2])
    | returned hs hm hr hv =>
      exact hstmt hlocated.1 hs (by simp [Stmt.vars, Call.vars, hr])

/-- Objects that are derived come from allocations in methods that are derived to be reachable. -/
theorem closed_placed (hp : p.validate = .ok ()) (hG : Closed (p.setup selector) entries G) :
    Closed (p.setup selector) entries fun f => G f ∧ (p.setup selector).Placed G f where
  empty := ⟨hG.empty, trivial⟩
  entry m hm := ⟨hG.entry m hm, trivial⟩
  flow hf ho := ⟨hG.flow hf.1 ho.1, ho.2⟩
  rule := by
    rintro g f hr ⟨hg, hplaced⟩
    refine ⟨hG.rule hr hg, ?_⟩
    cases hr with
    | objectContext | methodContext | holder | source | target | occurs | entry | caller | callee |
        argument | result | returned => trivial
    | held => exact hplaced
    | @effect m i stmt _ hs he =>
      cases he with
      | copy | loadStatic | storeStatic | call => trivial
      | @new lhs ty a ha =>
        obtain ⟨hsite, hobject⟩ := Heap.object?_of_objectAt? hp ha
        exact ⟨a, m.context, hobject, hsite ▸ hg, rfl⟩
    | access hs ha => cases ha <;> trivial
    | invocation hi =>
      cases hi with
      | call => trivial
      | receiver => exact hplaced

end

end PointsTo
