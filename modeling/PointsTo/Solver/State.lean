import PointsTo.CallGraph.Basic
import PointsTo.Context.Selector
import PointsTo.Error
import PointsTo.Program.Dispatch
import PointsTo.Program.Index
import PointsTo.Solver.FlowGraph
import PointsTo.Solver.Worklist

/-!
# The solver's state

A run works on one `State`, under a `Setup` that never changes. Its actions are in `SolveM`: an action
that fails leaves the state as it was when it failed, so what had been found until then stays visible.

The actions of this module change one part of the state each; the rules of the analysis are built from
them.
-/

namespace PointsTo

/-- What a run is about. -/
structure Setup where
  program : IndexedProgram
  selector : Selector
  heap : Heap

/-- Counters of a run. -/
structure SolverStats where
  /-- Arrivals taken from the worklist. -/
  arrivals : Nat
  /-- Arrivals that brought a pointer something new. -/
  propagations : Nat
  /-- Calls without a target for some receiver. -/
  dispatchMisses : Nat
deriving DecidableEq, Inhabited

/-- Everything a run has found, and what is still to be done. -/
structure State where
  /-- Interned values and points-to sets. -/
  arena : Arena
  /-- The inclusions between pointers. -/
  flow : FlowGraph
  /-- The arrivals still to be handled. -/
  worklist : Worklist
  /-- The methods still to be wired, next one first. -/
  pending : Deque CSMethodId
  callGraph : CallGraph CSSiteId CSMethodId
  stats : SolverStats

/-- Actions of a run. -/
abbrev SolveM := EStateM AnalysisError State

namespace State

/-- The state before anything is found. -/
def initial (order : WorklistOrder) : State where
  arena := .initial
  flow := ∅
  worklist := .empty order
  pending := ∅
  callGraph := ∅
  stats := ⟨0, 0, 0⟩

/-- The points-to set of a pointer. -/
def pointsTo (s : State) (p : PointerId) : PointsToSet := s.arena.pointsTo p

/-- The state in which some objects have arrived at a pointer. -/
def arrive (s : State) (p : PointerId) (objects : PointsToSet) : State :=
  { s with worklist := s.worklist.push ⟨p, objects⟩ }

/-- The state with a flow edge. Over a new edge, what the source points to arrives at the target. -/
def addFlow (s : State) (source target : PointerId) : State :=
  if s.flow.hasEdge source target then s
  else
    let t := { s with flow := s.flow.addEdge source target }
    if (s.pointsTo source).isEmpty then t else t.arrive target (s.pointsTo source)

/-- The state with a call edge, whose callee waits to be wired. -/
def addCall (s : State) (kind : EdgeKind) (site : CSSiteId) (callee : CSMethodId) : State :=
  { s with
    callGraph := s.callGraph.addEdge ⟨kind, site, callee⟩
    pending := s.pending.push callee }

/-- The state in which new objects are added to a pointer's set and arrive at its successors. -/
def spread (s : State) (p : PointerId) (fresh : PointsToSet) : State :=
  let t := { s with
    arena := s.arena.setPointsTo p ((s.pointsTo p).union fresh)
    stats := { s.stats with propagations := s.stats.propagations + 1 } }
  (s.flow.successors p).foldl (fun t q => t.arrive q fresh) t

/-- The state with one more call without a target. -/
def countMiss (s : State) : State :=
  { s with stats := { s.stats with dispatchMisses := s.stats.dispatchMisses + 1 } }

end State

namespace Solver

/-- The value of a look-up that must succeed. -/
def known {α : Type} : Option α → SolveM α
  | some a => pure a
  | none => throw .unknownId

/-- Intern a value. -/
def intern (f : Arena → Nat × Arena) : SolveM Nat :=
  modifyGet fun s => let (id, arena) := f s.arena; (id, { s with arena })

/-- The id of a context. -/
def contextId (c : Context) : SolveM ContextId := intern (·.internContext c)

/-- The id of an object under its heap context. -/
def objectId (o : CSObj) : SolveM CSObjId := intern (·.internObject o)

/-- The id of a method under its context. -/
def methodId (m : CSMethod) : SolveM CSMethodId := intern (·.internMethod m)

/-- The id of a call site under its context. -/
def siteId (s : CSSite) : SolveM CSSiteId := intern (·.internSite s)

/-- The id of a pointer. -/
def pointerId (p : Pointer) : SolveM PointerId := intern (·.internPointer p)

/-- The context of an id. -/
def contextOf (c : ContextId) : SolveM Context := do known ((← get).arena.contexts.get? c)

/-- The object of an id. -/
def objectOf (o : CSObjId) : SolveM CSObj := do known ((← get).arena.objects.get? o)

/-- The method of an id. -/
def methodOf (m : CSMethodId) : SolveM CSMethod := do known ((← get).arena.methods.get? m)

/-- The call site of an id. -/
def siteOf (s : CSSiteId) : SolveM CSSite := do known ((← get).arena.sites.get? s)

/-- Some objects arrive at a pointer. -/
def arrive (p : PointerId) (objects : PointsToSet) : SolveM Unit := modify (·.arrive p objects)

/-- Whatever the source points to, the target points to as well. -/
def addFlow (source target : PointerId) : SolveM Unit := modify (·.addFlow source target)

/-- Flow between two pointers, the source interned first. -/
def connect (source target : Pointer) : SolveM Unit := do
  let source ← pointerId source
  let target ← pointerId target
  addFlow source target

end Solver

end PointsTo
