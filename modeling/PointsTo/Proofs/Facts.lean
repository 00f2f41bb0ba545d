import Mathlib.Algebra.Ring.Nat
import PointsTo.Solver.State

/-!
# The facts of an analysis and the rules that derive them

The solver works on ids. Here everything it can find is a `Fact` that names contexts by their elements
and objects by heap context and position in the heap, so that two runs can be compared whatever ids
they handed out.

`Entails` lists the rules with one premise, where `Effect` says what a statement does as soon as its
method is reachable, `Access` what it does once its base points to an object, and `Invocation` what a
call does once its receiver does. The one rule with two premises is that what a location points to
flows along flow edges. A family of facts is `Closed` if it holds the
entries and whatever the rules derive from its members, and `Derivable` is the least closed family.

The rules never ask whether a call passes as many arguments as its callee has parameters, or whether
a method has a variable for its receiver. A run that meets such a call ends with an error, and `Fault`
says at which facts this happens.
-/

namespace PointsTo

/-- An abstract object under a heap context. -/
structure HeapObject where
  heapContext : Context
  object : ObjId
deriving DecidableEq

/-- A method under a context. -/
structure MethodInstance where
  context : Context
  method : MethodId
deriving DecidableEq

/-- A call site under the context of its method. -/
structure SiteInstance where
  context : Context
  site : Site
deriving DecidableEq

/-- Anything that points to objects. -/
inductive Location where
  /-- A variable under the context of its method. -/
  | var (context : Context) (v : VarId)
  | instanceField (base : HeapObject) (f : FieldId)
  | staticField (f : FieldId)
  /-- All slots of an array together. -/
  | arraySlots (array : HeapObject)
deriving DecidableEq

/-- What an analysis can find. The first five say that something occurs. -/
inductive Fact where
  | context (c : Context)
  | object (o : HeapObject)
  | method (m : MethodInstance)
  | site (x : SiteInstance)
  | location (l : Location)
  /-- Execution may start in the method instance. -/
  | entry (m : MethodInstance)
  | reachable (m : MethodInstance)
  | pointsTo (l : Location) (o : HeapObject)
  /-- Whatever the source points to, the target points to as well. -/
  | flow (source target : Location)
  | call (kind : EdgeKind) (x : SiteInstance) (callee : MethodInstance)

namespace Setup

variable (setup : Setup)

/-- The method instance that a static call under context `c` reaches, if it names method `m`. -/
def staticCallee (c : Context) (site : Site) (m : MethodId) : MethodInstance :=
  ⟨setup.selector.calleeContext c site none m, m⟩

/-- The method instance that a call under context `c` reaches, if it runs method `m` on the receiver
`o`, which the heap describes as `a`. -/
def instanceCallee (c : Context) (site : Site) (o : HeapObject) (a : AbstractObject) (m : MethodId) :
    MethodInstance :=
  ⟨setup.selector.calleeContext c site (some ⟨o.heapContext, a⟩) m, m⟩

/-- The call `d` at `site` is one on a variable `v`, and under context `c` it runs `callee` on the
receiver `o`. -/
def Runs (c : Context) (site : Site) (d : Call) (v : VarId) (o : HeapObject)
    (callee : MethodInstance) : Prop :=
  setup.program.stmt? site = some (.call d) ∧ d.isStatic = false ∧ d.receiver = some v ∧
    ∃ a m, setup.heap.object? o.object = some a ∧ setup.program.resolve? a.ty d = some m ∧
      callee = setup.instanceCallee c site o a m

/-- How many targets the call at `site` misses on the receiver `o`: one or none. -/
def missesAt (o : HeapObject) (site : Site) : Nat :=
  match setup.program.stmt? site, setup.heap.object? o.object with
  | some (.call d), some a => if (setup.program.resolve? a.ty d).isNone then 1 else 0
  | _, _ => 0

/-- How many calls miss a target because the location points to the object. -/
def missCount (l : Location) (o : HeapObject) : Nat :=
  match l with
  | .var _ v => ((setup.program.uses v).calls.map (setup.missesAt o)).sum
  | _ => 0

end Setup

/-- What a statement of a reachable method does at once: `Effect setup m site stmt f` derives `f` for
the statement `stmt` at `site` in the method instance `m`. -/
inductive Effect (setup : Setup) (m : MethodInstance) (site : Site) : Stmt → Fact → Prop where
  | new {lhs : VarId} {ty : TypeRef} {a : AbstractObject}
      (ha : setup.heap.objectAt? site = some a) :
      Effect setup m site (.new lhs ty)
        (.pointsTo (.var m.context lhs) ⟨setup.selector.heapContext m.context a, a.id⟩)
  | copy {lhs rhs : VarId} :
      Effect setup m site (.copy lhs rhs) (.flow (.var m.context rhs) (.var m.context lhs))
  | loadStatic {lhs : VarId} {f : FieldId} :
      Effect setup m site (.loadStatic lhs f) (.flow (.staticField f) (.var m.context lhs))
  | storeStatic {f : FieldId} {rhs : VarId} :
      Effect setup m site (.storeStatic f rhs) (.flow (.var m.context rhs) (.staticField f))
  | call {d : Call} {callee : MethodId} (hd : d.isStatic = true)
      (hc : setup.program.resolveStatic d = .ok callee) :
      Effect setup m site (.call d)
        (.call .static ⟨m.context, site⟩ (setup.staticCallee m.context site callee))

/-- What a statement does as soon as its base `v` points to the object `o` under the context `c`. -/
inductive Access (c : Context) (v : VarId) (o : HeapObject) : Stmt → Fact → Prop where
  | storeField {f : FieldId} {rhs : VarId} :
      Access c v o (.storeField v f rhs) (.flow (.var c rhs) (.instanceField o f))
  | loadField {lhs : VarId} {f : FieldId} :
      Access c v o (.loadField lhs v f) (.flow (.instanceField o f) (.var c lhs))
  | storeArray {rhs : VarId} : Access c v o (.storeArray v rhs) (.flow (.var c rhs) (.arraySlots o))
  | loadArray {lhs : VarId} : Access c v o (.loadArray lhs v) (.flow (.arraySlots o) (.var c lhs))

/-- What the call at a site does as soon as its receiver `v` points to the object `o` under the
context `c`: the receiver variable of the callee points to `o` as well. -/
inductive Invocation (setup : Setup) (c : Context) (v : VarId) (o : HeapObject) (site : Site) :
    Fact → Prop where
  | call {d : Call} {callee : MethodInstance} (hr : setup.Runs c site d v o callee) :
      Invocation setup c v o site (.call (.ofMode d.mode) ⟨c, site⟩ callee)
  | receiver {d : Call} {callee : MethodInstance} {method : MethodDecl} {this : VarId}
      (hr : setup.Runs c site d v o callee)
      (hm : setup.program.method? callee.method = some method) (ht : method.this = some this) :
      Invocation setup c v o site (.pointsTo (.var callee.context this) o)

/-- The rules with one premise: `Entails setup g f` derives `f` from `g`. The first seven say that
whatever a fact is about occurs. -/
inductive Entails (setup : Setup) : Fact → Fact → Prop where
  | objectContext {o : HeapObject} : Entails setup (.object o) (.context o.heapContext)
  | methodContext {m : MethodInstance} : Entails setup (.method m) (.context m.context)
  | holder {l : Location} {o : HeapObject} : Entails setup (.pointsTo l o) (.location l)
  | held {l : Location} {o : HeapObject} : Entails setup (.pointsTo l o) (.object o)
  | source {l l' : Location} : Entails setup (.flow l l') (.location l)
  | target {l l' : Location} : Entails setup (.flow l l') (.location l')
  | occurs {m : MethodInstance} : Entails setup (.reachable m) (.method m)
  | entry {m : MethodInstance} : Entails setup (.entry m) (.reachable m)
  | effect {m : MethodInstance} {i : Nat} {stmt : Stmt} {f : Fact}
      (hs : setup.program.stmt? ⟨m.method, i⟩ = some stmt)
      (h : Effect setup m ⟨m.method, i⟩ stmt f) : Entails setup (.reachable m) f
  | access {c : Context} {v : VarId} {o : HeapObject} {site : Site} {stmt : Stmt} {f : Fact}
      (hs : setup.program.stmt? site = some stmt) (h : Access c v o stmt f) :
      Entails setup (.pointsTo (.var c v) o) f
  | invocation {c : Context} {v : VarId} {o : HeapObject} {site : Site} {f : Fact}
      (h : Invocation setup c v o site f) : Entails setup (.pointsTo (.var c v) o) f
  | caller {kind : EdgeKind} {x : SiteInstance} {callee : MethodInstance} :
      Entails setup (.call kind x callee) (.site x)
  | callee {kind : EdgeKind} {x : SiteInstance} {callee : MethodInstance} :
      Entails setup (.call kind x callee) (.reachable callee)
  /-- Arguments flow to parameters. -/
  | argument {kind : EdgeKind} {x : SiteInstance} {callee : MethodInstance} {d : Call}
      {method : MethodDecl} {arg param : VarId}
      (hs : setup.program.stmt? x.site = some (.call d))
      (hm : setup.program.method? callee.method = some method)
      (ha : (arg, param) ∈ d.args.zip method.params) :
      Entails setup (.call kind x callee) (.flow (.var x.context arg) (.var callee.context param))
  /-- The variable that takes the result of a call occurs, even if the callee returns nothing. -/
  | result {kind : EdgeKind} {x : SiteInstance} {callee : MethodInstance} {d : Call} {result : VarId}
      (hs : setup.program.stmt? x.site = some (.call d)) (hr : d.result = some result) :
      Entails setup (.call kind x callee) (.location (.var x.context result))
  /-- Results flow to the variable that takes them. -/
  | returned {kind : EdgeKind} {x : SiteInstance} {callee : MethodInstance} {d : Call}
      {method : MethodDecl} {result ret : VarId}
      (hs : setup.program.stmt? x.site = some (.call d))
      (hm : setup.program.method? callee.method = some method)
      (hr : d.result = some result) (hv : ret ∈ method.returns) :
      Entails setup (.call kind x callee) (.flow (.var callee.context ret) (.var x.context result))

/-- A family of facts that holds the entries and whatever the rules derive from its members. -/
structure Closed (setup : Setup) (entries : List MethodId) (F : Fact → Prop) : Prop where
  empty : F (.context ∅)
  entry : ∀ m ∈ entries, F (.entry ⟨setup.selector.entryContext, m⟩)
  rule : ∀ {g f}, Entails setup g f → F g → F f
  flow : ∀ {l l' o}, F (.flow l l') → F (.pointsTo l o) → F (.pointsTo l' o)

/-- The facts that the rules derive from the entries. -/
inductive Derivable (setup : Setup) (entries : List MethodId) : Fact → Prop where
  | empty : Derivable setup entries (.context ∅)
  | entry {m : MethodId} (h : m ∈ entries) :
      Derivable setup entries (.entry ⟨setup.selector.entryContext, m⟩)
  | rule {g f : Fact} (hr : Entails setup g f) (h : Derivable setup entries g) :
      Derivable setup entries f
  | flow {l l' : Location} {o : HeapObject} (hf : Derivable setup entries (.flow l l'))
      (ho : Derivable setup entries (.pointsTo l o)) : Derivable setup entries (.pointsTo l' o)

/-- Why a statement of a reachable method cannot take effect: an allocation has no object, or a static
call names a method that its class does not declare. -/
inductive Misstep (setup : Setup) (site : Site) : Stmt → AnalysisError → Prop where
  | unallocated {lhs : VarId} {ty : TypeRef} (ha : setup.heap.objectAt? site = none) :
      Misstep setup site (.new lhs ty) (.missingAllocation site.text)
  | dangling {d : Call} {e : ProgramError} (hd : d.isStatic = true)
      (hc : setup.program.resolveStatic d = .error e) : Misstep setup site (.call d) (.program e)

/-- Why the call at a site cannot be made on a receiver: it runs a method without a variable for it. -/
inductive Refusal (setup : Setup) (c : Context) (v : VarId) (o : HeapObject) (site : Site) :
    AnalysisError → Prop where
  | missingThis {d : Call} {callee : MethodInstance} {method : MethodDecl}
      (hr : setup.Runs c site d v o callee)
      (hm : setup.program.method? callee.method = some method) (ht : method.this = none) :
      Refusal setup c v o site (.program (.missingThis (setup.program.signatureOf method)))

/-- The facts at which a run ends with an error, and the error. -/
inductive Fault (setup : Setup) : Fact → AnalysisError → Prop where
  /-- A method that does not exist is reachable. -/
  | unknownMethod {m : MethodInstance} (hm : setup.program.method? m.method = none) :
      Fault setup (.reachable m) .unknownId
  | misstep {m : MethodInstance} {i : Nat} {stmt : Stmt} {e : AnalysisError}
      (hs : setup.program.stmt? ⟨m.method, i⟩ = some stmt)
      (h : Misstep setup ⟨m.method, i⟩ stmt e) : Fault setup (.reachable m) e
  | refusal {c : Context} {v : VarId} {o : HeapObject} {site : Site} {e : AnalysisError}
      (h : Refusal setup c v o site e) : Fault setup (.pointsTo (.var c v) o) e
  /-- A call passes another number of arguments than its callee has parameters. -/
  | arity {kind : EdgeKind} {x : SiteInstance} {callee : MethodInstance} {d : Call}
      {method : MethodDecl} (hs : setup.program.stmt? x.site = some (.call d))
      (hm : setup.program.method? callee.method = some method)
      (ha : d.args.length ≠ method.params.length) :
      Fault setup (.call kind x callee)
        (.arityMismatch s!"{x.site.text} in {setup.program.signature x.site.method}"
          (setup.program.signatureOf method) d.args.length method.params.length)

/-- A family of facts that misses nothing: it is closed under the rules, no run ends at a member, and
the heap describes every object in it. -/
structure Complete (setup : Setup) (entries : List MethodId) (F : Fact → Prop) : Prop where
  closed : Closed setup entries F
  faultless : ∀ f e, F f → ¬Fault setup f e
  described : ∀ o, F (.object o) → ∃ a, setup.heap.object? o.object = some a

/-- An access of a statement reaches one thing only. -/
theorem Access.unique {c : Context} {v : VarId} {o : HeapObject} {stmt : Stmt} {f g : Fact}
    (hf : Access c v o stmt f) (hg : Access c v o stmt g) : f = g := by
  cases hf <;> cases hg <;> rfl

/-- A call runs one method only on a receiver. -/
theorem Setup.Runs.unique {setup : Setup} {c : Context} {site : Site} {d d' : Call} {v : VarId}
    {o : HeapObject} {callee callee' : MethodInstance} (h : setup.Runs c site d v o callee)
    (h' : setup.Runs c site d' v o callee') : d = d' ∧ callee = callee' := by
  obtain ⟨hd, -, -, a, m, ha, hm, rfl⟩ := h
  obtain ⟨hd', -, -, a', m', ha', hm', rfl⟩ := h'
  rw [hd] at hd'
  cases hd'
  rw [ha] at ha'
  cases ha'
  rw [hm] at hm'
  cases hm'
  exact ⟨rfl, rfl⟩

section

variable {setup : Setup} {entries : List MethodId} {F : Fact → Prop}

/-- The derivable facts are a closed family. -/
theorem closed_derivable : Closed setup entries (Derivable setup entries) :=
  ⟨.empty, fun _ h => .entry h, .rule, .flow⟩

/-- The derivable facts belong to every closed family. -/
theorem Closed.of_derivable (hF : Closed setup entries F) {f : Fact}
    (h : Derivable setup entries f) : F f := by
  induction h with
  | empty => exact hF.empty
  | entry hm => exact hF.entry _ hm
  | rule hr _ ih => exact hF.rule hr ih
  | flow _ _ ihf iho => exact hF.flow ihf iho

/-- A fact is derivable exactly if it belongs to every closed family. -/
theorem derivable_iff {f : Fact} :
    Derivable setup entries f ↔ ∀ F, Closed setup entries F → F f :=
  ⟨fun h _ hF => hF.of_derivable h, fun h => h _ closed_derivable⟩

theorem Closed.of_subset {entries' : List MethodId} (hF : Closed setup entries F)
    (h : entries' ⊆ entries) : Closed setup entries' F :=
  { hF with entry := fun m hm => hF.entry m (h hm) }

/-- Only the members of the entry list matter. -/
theorem Derivable.mono {entries' : List MethodId} (h : ∀ m ∈ entries, m ∈ entries') {f : Fact}
    (hf : Derivable setup entries f) : Derivable setup entries' f :=
  (closed_derivable.of_subset h).of_derivable hf

end

end PointsTo
