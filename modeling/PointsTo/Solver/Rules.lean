import PointsTo.Solver.State

/-!
# The rules of the analysis

* A method found reachable is wired (`addReachable`): its allocations, copies, static accesses and
  static calls take effect at once.
* An object that is new at a variable (`meetObject`) connects the field and array accesses based on
  the variable with the object's own pointers, and makes the calls on the variable reach what the
  object runs for them.
* A call edge is installed once (`connectCall`): arguments flow to parameters, return variables to the
  result, and the callee waits to be wired.

None of the rules runs another method's rules; the callee of an edge waits in the state. In which order
ids are handed out is fixed by the order of the actions here.
-/

namespace PointsTo.Solver

/-- Install the edge from a call site to a method, unless it is there. A call with another number of
arguments than the method has parameters fails before anything is changed. -/
def connectCall (setup : Setup) (kind : EdgeKind) (site : CSSiteId) (callee : CSMethodId)
    (c : Call) : SolveM Unit := do
  if (← get).callGraph.hasEdge site callee then pure ()
  else
    let caller ← siteOf site
    let target ← methodOf callee
    let method ← known (setup.program.method? target.method)
    if c.args.length ≠ method.params.length then
      let signature := setup.program.signature caller.site.method
      throw (.arityMismatch s!"{caller.site.text} in {signature}" (setup.program.signatureOf method)
        c.args.length method.params.length)
    else
      modify (·.addCall kind site callee)
      (c.args.zip method.params).forM fun (arg, param) =>
        connect (.var caller.context arg) (.var target.context param)
      match c.result with
      | none => pure ()
      | some result =>
        let target' ← pointerId (.var caller.context result)
        method.returns.forM fun ret => do
          let source ← pointerId (.var target.context ret)
          addFlow source target'

/-- The object that an allocation creates under a context. -/
def allocate (setup : Setup) (context : ContextId) (site : Site) : SolveM CSObjId := do
  match setup.heap.objectAt? site with
  | none => throw (.missingAllocation site.text)
  | some object =>
    let method ← contextOf context
    let heapContext ← contextId (setup.selector.heapContext method object)
    objectId ⟨heapContext, object.id⟩

/-- A static call in a method under a context. -/
def callStatic (setup : Setup) (context : ContextId) (site : Site) (c : Call) : SolveM Unit := do
  match setup.program.resolveStatic c with
  | .error e => throw (.program e)
  | .ok callee =>
    let caller ← contextOf context
    let calleeContext ← contextId (setup.selector.calleeContext caller site none callee)
    let callee ← methodId ⟨calleeContext, callee⟩
    let site ← siteId ⟨context, site⟩
    connectCall setup .static site callee c

/-- What a statement does as soon as its method is reachable. Accesses and calls through a variable
wait for objects. -/
def wire (setup : Setup) (context : ContextId) (site : Site) : Stmt → SolveM Unit
  | .new lhs _ => do
    let object ← allocate setup context site
    let target ← pointerId (.var context lhs)
    arrive target (.singleton object)
  | .copy lhs rhs => connect (.var context rhs) (.var context lhs)
  | .loadStatic lhs f => connect (.staticField f) (.var context lhs)
  | .storeStatic f rhs => connect (.var context rhs) (.staticField f)
  | .call c => if c.isStatic then callStatic setup context site c else pure ()
  | .loadField .. | .storeField .. | .loadArray .. | .storeArray .. => pure ()

/-- Make a method reachable and wire its body, unless it is reachable already. -/
def addReachable (setup : Setup) (m : CSMethodId) : SolveM Unit := do
  if (← get).callGraph.reaches m then pure ()
  else
    modify fun s => { s with callGraph := s.callGraph.addReachable m }
    let method ← methodOf m
    let d ← known (setup.program.method? method.method)
    d.body.zipIdx.forM fun (stmt, i) => wire setup method.context ⟨method.method, i⟩ stmt

/-- Where the values of a field store go, for an object found at its base. -/
def storeFieldFlow (context : ContextId) (object : CSObjId) : Stmt → Option (Pointer × Pointer)
  | .storeField _ f rhs => some (.var context rhs, .instanceField object f)
  | _ => none

/-- Where the values of a field load go, for an object found at its base. -/
def loadFieldFlow (context : ContextId) (object : CSObjId) : Stmt → Option (Pointer × Pointer)
  | .loadField lhs _ f => some (.instanceField object f, .var context lhs)
  | _ => none

/-- Where the values of an array store go, for an array found at its base. -/
def storeArrayFlow (context : ContextId) (object : CSObjId) : Stmt → Option (Pointer × Pointer)
  | .storeArray _ rhs => some (.var context rhs, .arraySlots object)
  | _ => none

/-- Where the values of an array load go, for an array found at its base. -/
def loadArrayFlow (context : ContextId) (object : CSObjId) : Stmt → Option (Pointer × Pointer)
  | .loadArray lhs _ => some (.arraySlots object, .var context lhs)
  | _ => none

/-- Connect what an access connects. A use that is no longer an access of its kind is passed over. -/
def wireUse (setup : Setup) (flow : Stmt → Option (Pointer × Pointer)) (site : Site) :
    SolveM Unit := do
  match flow (← known (setup.program.stmt? site)) with
  | some (source, target) => connect source target
  | none => pure ()

/-- Connect all accesses through a variable with the object found there. -/
def wireAccesses (setup : Setup) (context : ContextId) (v : VarId) (object : CSObjId) :
    SolveM Unit := do
  let uses := setup.program.uses v
  uses.storeFields.forM (wireUse setup (storeFieldFlow context object))
  uses.loadFields.forM (wireUse setup (loadFieldFlow context object))
  uses.storeArrays.forM (wireUse setup (storeArrayFlow context object))
  uses.loadArrays.forM (wireUse setup (loadArrayFlow context object))

/-- One call on a variable, for the receiver found there. -/
def callOn (setup : Setup) (context : ContextId) (receiver : CSObjId) (site : Site) :
    SolveM Unit := do
  match ← known (setup.program.stmt? site) with
  | .call c =>
    let recorded ← objectOf receiver
    let object ← known (setup.heap.object? recorded.object)
    match setup.program.resolve? object.ty c with
    | none => modify (·.countMiss)
    | some callee =>
      let caller ← contextOf context
      let heapContext ← contextOf recorded.heapContext
      let calleeContext ← contextId
        (setup.selector.calleeContext caller site (some ⟨heapContext, object⟩) callee)
      let target ← methodId ⟨calleeContext, callee⟩
      let method ← known (setup.program.method? callee)
      match method.this with
      | none => throw (.program (.missingThis (setup.program.signatureOf method)))
      | some this =>
        let thisPointer ← pointerId (.var calleeContext this)
        arrive thisPointer (.singleton receiver)
        let site ← siteId ⟨context, site⟩
        connectCall setup (.ofMode c.mode) site target c
  | _ => pure ()

/-- All calls on a variable, for the receiver found there. -/
def callsOn (setup : Setup) (context : ContextId) (v : VarId) (receiver : CSObjId) : SolveM Unit :=
  (setup.program.uses v).calls.forM fun site => callOn setup context receiver site

/-- What an object does that is new at a variable. -/
def meetObject (setup : Setup) (context : ContextId) (v : VarId) (object : CSObjId) :
    SolveM Unit := do
  wireAccesses setup context v object
  callsOn setup context v object

/-- Add what is new of an arrival to its pointer and to the arrivals at the pointer's successors. The
answer is what was new. -/
def settle (a : Arrival) : SolveM PointsToSet := do
  let fresh := a.objects.diff ((← get).pointsTo a.pointer)
  if fresh.isEmpty then pure fresh
  else
    modify (·.spread a.pointer fresh)
    pure fresh

/-- Handle an arrival. -/
def handle (setup : Setup) (a : Arrival) : SolveM Unit := do
  let fresh ← settle a
  match (← get).arena.pointers.get? a.pointer with
  | some (.var context v) => fresh.toList.forM fun object => meetObject setup context v object
  | _ => pure ()

end PointsTo.Solver
