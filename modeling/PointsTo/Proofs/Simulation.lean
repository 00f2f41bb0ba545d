import PointsTo.Proofs.StepBound

/-!
# Comparing two analyses

A family of facts that is closed under the rules and holds no fault bounds what a run finds, and with fuel
enough the run ends well (`Solver.exists_solve_of_faultless`). Here such a family is taken from another
analysis.

Two analyses can be compared even if they make different contexts and number their objects differently,
as long as a `Translation` takes the contexts and objects of one to those of the other. One setup is
`Simulated` by another if everything it does translates to something the other does: the statements are
there, calls resolve alike, and translating a context commutes with making it. Then the facts whose
translations the other setup derives are closed under the rules of the first (`Simulated.closed`), and
faults translate to faults. So once a run of the other setup ends well, runs of the first can only end
well (`Simulated.error_eq_outOfFuel`), and what they find translates to what the other run has found
(`Simulated.pulls_of_solve`).
-/

namespace PointsTo

/-! ## Runs within a family without faults -/

namespace Solver

variable {setup : Setup} {entries : List MethodId} {F : Fact → Prop} {order : WorklistOrder}

/-- Entries from which no fault is derived exist. -/
theorem lt_of_mem_entries (hF : Closed setup entries F) (hfault : ∀ f e, F f → ¬Fault setup f e)
    {m : MethodId} (hm : m ∈ entries) : m < setup.program.methods.size := by
  have hreach := hF.rule .entry (hF.entry m hm)
  cases hmethod : setup.program.method? m with
  | none => exact absurd (.unknownMethod hmethod) (hfault _ .unknownId hreach)
  | some d => exact Program.method_lt hmethod

/-- With a selector that keeps to a list of contexts no run lacks fuel. -/
theorem ne_outOfFuel_of_solve (hset : setup.WellFormed) {cs : List Context} (hk : setup.KeepsTo cs)
    (hentries : ∀ m ∈ entries, m < setup.program.methods.size) (hne : entries ≠ []) {n : Nat}
    (hn : setup.program.stepsWithin cs.length ≤ n) {e : AnalysisError} {s : State}
    (h : solve setup n entries (.initial order) = .error e s) : e ≠ .outOfFuel := by
  have hF : Closed setup entries (setup.program.InScope cs) := closed_inScope hset hk hentries
  cases hseed : seed setup entries (.initial order) with
  | error e' t =>
    obtain ⟨-, f, -, he⟩ := (ends_seed hset hF (sound_initial hF) hne).failed_of_eq hseed
    have heq : solve setup n entries (.initial order) = .error e' t := bind_of_error hseed
    rw [heq] at h
    cases h
    exact ne_outOfFuel_of_fault he
  | ok _ t =>
    have heq : solve setup n entries (.initial order) = run setup n t := bind_of_ok hseed
    rw [heq, ← after_of_ok hseed] at h
    exact (stops_of_keepsTo hset hk order hentries hn).2 e s h

/-- No run of a shipped policy lacks fuel, given enough for as many steps as it may take. -/
theorem ne_outOfFuel_of_stepBound {p : Program} (hp : p.validate = .ok ()) {policy : ContextPolicy}
    {k heapK : Nat} (hentries : ∀ m ∈ entries, m < p.methods.size) (hne : entries ≠ []) {n : Nat}
    (hn : p.stepBound k heapK ≤ n) {e : AnalysisError} {s : State}
    (h : solve (p.setup (policy.selector k heapK)) n entries (.initial order) = .error e s) :
    e ≠ .outOfFuel := by
  have hbound : p.stepsWithin (p.contextsUpTo (max k heapK)).length ≤ n :=
    (Program.stepsWithin_mono (Program.length_contextsUpTo_le _)).trans hn
  exact ne_outOfFuel_of_solve (Program.wellFormed_setup hp)
    (Program.keepsTo_contextsUpTo hp policy k heapK) hentries hne hbound h

/-- A run within a family without faults ends well, unless it lacks fuel. -/
theorem error_eq_outOfFuel_of_faultless (hset : setup.WellFormed) (hF : Closed setup entries F)
    (hfault : ∀ f e, F f → ¬Fault setup f e) (hne : entries ≠ []) {n : Nat} {e : AnalysisError}
    {s : State} (h : solve setup n entries (.initial order) = .error e s) : e = .outOfFuel := by
  obtain ⟨-, he⟩ := (ends_solve hset hF n hne).failed_of_eq h
  rcases he with he | ⟨f, hf, he⟩
  · exact he
  · exact absurd he (hfault f e hf)

/-- A run of a shipped policy within a family without faults ends well, given fuel for as many steps as
it may take. -/
theorem exists_solve_of_faultless {p : Program} (hp : p.validate = .ok ()) {policy : ContextPolicy}
    {k heapK : Nat} (hF : Closed (p.setup (policy.selector k heapK)) entries F)
    (hfault : ∀ f e, F f → ¬Fault (p.setup (policy.selector k heapK)) f e) (hne : entries ≠ [])
    (order : WorklistOrder) {n : Nat} (hn : p.stepBound k heapK ≤ n) :
    ∃ s, solve (p.setup (policy.selector k heapK)) n entries (.initial order) = .ok () s := by
  have hset : (p.setup (policy.selector k heapK)).WellFormed := Program.wellFormed_setup hp
  have hlt : ∀ m ∈ entries, m < p.methods.size := fun m hm => lt_of_mem_entries hF hfault hm
  cases hs : solve (p.setup (policy.selector k heapK)) n entries (.initial order) with
  | ok _ s => exact ⟨s, rfl⟩
  | error e s =>
    have he := error_eq_outOfFuel_of_faultless hset hF hfault hne hs
    exact absurd he (ne_outOfFuel_of_stepBound hp hlt hne hn hs)

end Solver

/-! ## Translations -/

/-- What contexts and objects of one analysis stand for in another. -/
structure Translation where
  methodContext : Context → Context
  heapContext : Context → Context
  object : ObjId → ObjId

namespace Translation

variable (r : Translation)

def heapObject (o : HeapObject) : HeapObject := ⟨r.heapContext o.heapContext, r.object o.object⟩

def methodInstance (m : MethodInstance) : MethodInstance := ⟨r.methodContext m.context, m.method⟩

def siteInstance (x : SiteInstance) : SiteInstance := ⟨r.methodContext x.context, x.site⟩

def location : Location → Location
  | .var c v => .var (r.methodContext c) v
  | .instanceField o f => .instanceField (r.heapObject o) f
  | .staticField f => .staticField f
  | .arraySlots o => .arraySlots (r.heapObject o)

/-- The facts whose translations belong to `G`. A context by itself has no translation, as it may be
one of methods or one of objects. -/
def Pulls (G : Fact → Prop) : Fact → Prop
  | .context _ => True
  | .object o => G (.object (r.heapObject o))
  | .method m => G (.method (r.methodInstance m))
  | .site x => G (.site (r.siteInstance x))
  | .location l => G (.location (r.location l))
  | .entry m => G (.entry (r.methodInstance m))
  | .reachable m => G (.reachable (r.methodInstance m))
  | .pointsTo l o => G (.pointsTo (r.location l) (r.heapObject o))
  | .flow l l' => G (.flow (r.location l) (r.location l'))
  | .call kind x m => G (.call kind (r.siteInstance x) (r.methodInstance m))

end Translation

/-- Whatever `setup` does translates to something that `setup'` does. -/
structure Setup.Simulated (setup setup' : Setup) (r : Translation) : Prop where
  entry : r.methodContext setup.selector.entryContext = setup'.selector.entryContext
  stmt : ∀ {site stmt}, setup.program.stmt? site = some stmt → setup'.program.stmt? site = some stmt
  method : ∀ {m d}, setup.program.method? m = some d → ∃ d', setup'.program.method? m = some d' ∧
    d'.this = d.this ∧ d'.params = d.params ∧ d.returns ⊆ d'.returns
  noMethod : ∀ {m}, setup.program.method? m = none → setup'.program.method? m = none
  resolveStatic : ∀ d, setup'.program.resolveStatic d = setup.program.resolveStatic d
  staticCallee : ∀ c site m, setup'.selector.calleeContext (r.methodContext c) site none m =
    r.methodContext (setup.selector.calleeContext c site none m)
  /-- An allocation is recorded as the translation of its object. -/
  allocation : ∀ {site a}, setup.heap.objectAt? site = some a → ∃ a',
    setup'.heap.objectAt? site = some a' ∧ a'.id = r.object a.id ∧
    ∀ c, setup'.selector.heapContext (r.methodContext c) a' =
      r.heapContext (setup.selector.heapContext c a)
  /-- A receiver and its translation run the same methods, under contexts that translate. -/
  receiver : ∀ {i a}, setup.heap.object? i = some a → ∃ a',
    setup'.heap.object? (r.object i) = some a' ∧
    (∀ d, setup'.program.resolve? a'.ty d = setup.program.resolve? a.ty d) ∧
    ∀ c site h m,
      setup'.selector.calleeContext (r.methodContext c) site (some ⟨r.heapContext h, a'⟩) m =
        r.methodContext (setup.selector.calleeContext c site (some ⟨h, a⟩) m)

namespace Setup.Simulated

variable {setup setup' : Setup} {r : Translation} (h : setup.Simulated setup' r)
  {entries entries' : List MethodId} {G : Fact → Prop}

include h

theorem runs {c : Context} {site : Site} {d : Call} {v : VarId} {o : HeapObject}
    {callee : MethodInstance} (hr : setup.Runs c site d v o callee) :
    setup'.Runs (r.methodContext c) site d v (r.heapObject o) (r.methodInstance callee) := by
  obtain ⟨hs, hstatic, hv, a, m, ha, hm, rfl⟩ := hr
  obtain ⟨a', ha', hresolve, hcontext⟩ := h.receiver ha
  refine ⟨h.stmt hs, hstatic, hv, a', m, ha', (hresolve d).trans hm, ?_⟩
  rw [Translation.methodInstance, Setup.instanceCallee, Setup.instanceCallee, ← hcontext]
  rfl

theorem stmt_siteInstance {x : SiteInstance} {stmt : Stmt}
    (hs : setup.program.stmt? x.site = some stmt) :
    setup'.program.stmt? (r.siteInstance x).site = some stmt :=
  h.stmt hs

theorem method_methodInstance {m : MethodInstance} {d : MethodDecl}
    (hm : setup.program.method? m.method = some d) :
    ∃ d', setup'.program.method? (r.methodInstance m).method = some d' ∧ d'.this = d.this ∧
      d'.params = d.params ∧ d.returns ⊆ d'.returns :=
  h.method hm

/-- What a statement does translates. -/
theorem pulls_effect (hG : Closed setup' entries' G) {m : MethodInstance} {i : Nat} {stmt : Stmt}
    {f : Fact} (hs : setup.program.stmt? ⟨m.method, i⟩ = some stmt)
    (hm : G (.reachable (r.methodInstance m))) (hf : Effect setup m ⟨m.method, i⟩ stmt f) :
    r.Pulls G f := by
  have hs' : setup'.program.stmt? ⟨(r.methodInstance m).method, i⟩ = some stmt := h.stmt hs
  have hrule : ∀ {f}, Effect setup' (r.methodInstance m) ⟨m.method, i⟩ stmt f → G f :=
    fun hf => hG.rule (.effect hs' hf) hm
  cases hf with
  | new ha =>
    obtain ⟨a', ha', hid, hcontext⟩ := h.allocation ha
    have hnew := hrule (.new ha')
    rw [Translation.methodInstance, hid, hcontext] at hnew
    exact hnew
  | copy => exact hrule .copy
  | loadStatic => exact hrule .loadStatic
  | storeStatic => exact hrule .storeStatic
  | call hd hc =>
    have hcall := hrule (.call hd ((h.resolveStatic _).trans hc))
    rw [Setup.staticCallee, Translation.methodInstance, h.staticCallee] at hcall
    exact hcall

/-- The facts whose translations belong to a closed family are a closed family. -/
theorem closed (hG : Closed setup' entries' G) (hentries : ∀ m ∈ entries, m ∈ entries') :
    Closed setup entries (r.Pulls G) where
  empty := trivial
  entry m hm := by
    show G (.entry ⟨r.methodContext setup.selector.entryContext, m⟩)
    rw [h.entry]
    exact hG.entry m (hentries m hm)
  flow hl ho := hG.flow hl ho
  rule := by
    intro g f hr hg
    cases hr with
    | objectContext | methodContext => exact trivial
    | holder => exact hG.rule .holder hg
    | held => exact hG.rule .held hg
    | source => exact hG.rule .source hg
    | target => exact hG.rule .target hg
    | occurs => exact hG.rule .occurs hg
    | entry => exact hG.rule .entry hg
    | effect hs hf => exact h.pulls_effect hG hs hg hf
    | access hs hf =>
      cases hf with
      | storeField => exact hG.rule (.access (h.stmt hs) .storeField) hg
      | loadField => exact hG.rule (.access (h.stmt hs) .loadField) hg
      | storeArray => exact hG.rule (.access (h.stmt hs) .storeArray) hg
      | loadArray => exact hG.rule (.access (h.stmt hs) .loadArray) hg
    | invocation hi =>
      cases hi with
      | call hr => exact hG.rule (.invocation (.call (h.runs hr))) hg
      | receiver hr hm ht =>
        obtain ⟨d', hd', hthis, -, -⟩ := h.method hm
        exact hG.rule (.invocation (.receiver (h.runs hr) hd' (hthis.trans ht))) hg
    | caller => exact hG.rule .caller hg
    | callee => exact hG.rule .callee hg
    | argument hs hm ha =>
      obtain ⟨d', hd', -, hparams, -⟩ := h.method_methodInstance hm
      exact hG.rule (.argument (h.stmt_siteInstance hs) hd' (hparams ▸ ha)) hg
    | result hs hr => exact hG.rule (.result (h.stmt_siteInstance hs) hr) hg
    | returned hs hm hr hv =>
      obtain ⟨d', hd', -, -, hreturns⟩ := h.method_methodInstance hm
      exact hG.rule (.returned (h.stmt_siteInstance hs) hd' hr (hreturns hv)) hg

/-- A fault translates to a fault. -/
theorem faultless (hset : setup.WellFormed) (hG : Complete setup' entries' G) {f : Fact}
    {e : AnalysisError} (hf : r.Pulls G f) : ¬Fault setup f e := by
  intro he
  cases he with
  | unknownMethod hm => exact hG.faultless _ _ hf (.unknownMethod (h.noMethod hm))
  | misstep hs hmis =>
    cases hmis with
    | unallocated ha =>
      -- no run meets this fault: the heap has an object for every allocation of a checked program
      rw [hset.heap] at ha
      obtain ⟨a, hsome, -⟩ := Heap.objectAt?_ofProgram hset.valid hs
      rw [ha] at hsome
      cases hsome
    | dangling hd hc =>
      exact hG.faultless _ _ hf (.misstep (h.stmt hs) (.dangling hd ((h.resolveStatic _).trans hc)))
  | refusal hrefuse =>
    obtain ⟨hr, hm, ht⟩ := hrefuse
    obtain ⟨d', hd', hthis, -, -⟩ := h.method hm
    exact hG.faultless _ _ hf (.refusal (.missingThis (h.runs hr) hd' (hthis.trans ht)))
  | arity hs hm ha =>
    obtain ⟨d', hd', -, hparams, -⟩ := h.method hm
    exact hG.faultless _ _ hf (.arity (h.stmt hs) hd' (hparams ▸ ha))

/-! ## Runs -/

open Solver

variable {order : WorklistOrder} {n : Nat} {s : State}

/-- A run that is simulated by a family without faults ends well, unless it lacks fuel. -/
theorem error_eq_outOfFuel (hset : setup.WellFormed) (hG : Complete setup' entries' G)
    (hentries : ∀ m ∈ entries, m ∈ entries') (hne : entries ≠ []) {e : AnalysisError}
    (hs : solve setup n entries (.initial order) = .error e s) : e = .outOfFuel :=
  error_eq_outOfFuel_of_faultless hset (h.closed hG.closed hentries)
    (fun _ _ => h.faultless hset hG) hne hs

/-- Whatever a run finds translates to a member of the family. -/
theorem pulls_of_solve (hset : setup.WellFormed) (hG : Complete setup' entries' G)
    (hentries : ∀ m ∈ entries, m ∈ entries')
    (hs : solve setup n entries (.initial order) = .ok () s) {f : Fact} (hf : s.Found f) :
    r.Pulls G f :=
  closed_of_found hset (h.closed hG.closed hentries) hs hf

end Setup.Simulated

/-- A run of a shipped policy that is simulated by a family without faults ends well, given fuel for as
many steps as it may take. -/
theorem Setup.Simulated.exists_solve {p : Program} (hp : p.validate = .ok ()) {policy : ContextPolicy}
    {k heapK : Nat} {setup' : Setup} {r : Translation}
    (h : (p.setup (policy.selector k heapK)).Simulated setup' r) {entries entries' : List MethodId}
    {G : Fact → Prop} (hG : Complete setup' entries' G) (hentries : ∀ m ∈ entries, m ∈ entries')
    (hne : entries ≠ []) (order : WorklistOrder) {n : Nat} (hn : p.stepBound k heapK ≤ n) :
    ∃ s, Solver.solve (p.setup (policy.selector k heapK)) n entries (.initial order) = .ok () s :=
  Solver.exists_solve_of_faultless hp (h.closed hG.closed hentries)
    (fun _ _ => h.faultless (Program.wellFormed_setup hp) hG) hne order hn

end PointsTo
