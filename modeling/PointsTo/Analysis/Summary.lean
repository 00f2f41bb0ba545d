import PointsTo.Analysis.Solution

/-!
# Reports by name

A `Summary` says what an analysis found in the program's names, without contexts: sizes, reachable
methods, call edges, and what variables and heap places point to. Its tables are sorted, so one
solution has one summary.
-/

namespace PointsTo

/-- Sizes of an analysis and its effort. -/
structure AnalysisStats where
  reachableMethods : Nat
  csMethods : Nat
  contexts : Nat
  csObjects : Nat
  pointers : Nat
  flowEdges : Nat
  callEdges : Nat
  /-- Arrivals handled. -/
  arrivals : Nat
  /-- Arrivals that brought something new. -/
  propagations : Nat
  /-- Calls without a target for some receiver. -/
  dispatchMisses : Nat
  /-- How long it took, in milliseconds. -/
  durationMs : Float
deriving BEq

/-- A call edge by name. -/
structure NamedEdge where
  caller : String
  site : String
  callee : String
  kind : EdgeKind
deriving DecidableEq

/-- A report by name. -/
structure Summary where
  selector : String
  /-- Sizes and effort. -/
  stats : AnalysisStats
  reachableMethods : List String
  callEdges : List NamedEdge
  /-- What each variable points to. -/
  varPointsTo : NameMap (List String)
  /-- What each heap place points to. -/
  fieldPointsTo : NameMap (List String)
deriving BEq

namespace NamedEdge

/-- Edges are ordered by caller, then site, callee and kind. -/
def le (a b : NamedEdge) : Bool :=
  a.caller < b.caller || (a.caller = b.caller &&
    (a.site < b.site || (a.site = b.site &&
      (a.callee < b.callee || (a.callee = b.callee && a.kind.rank ≤ b.kind.rank)))))

end NamedEdge

namespace Place

/-- The name of a heap place: `object.field`, `Class.field` or `object[*]`. Variables are named
elsewhere. -/
def heapName? (p : Program) (h : Heap) : Place → Option String
  | .var _ => none
  | .instanceField o f => (h.object? o).map fun object => s!"{object.describe p}.{p.fieldName f}"
  | .staticField f => (p.field? f).map fun d => s!"{p.className d.owner}.{d.name}"
  | .arraySlots o => (h.object? o).map fun object => s!"{object.describe p}[*]"

/-- The variable, if the place is one. -/
def var? : Place → Option VarId
  | .var v => some v
  | _ => none

/-- Of two heap places with one name, that of the higher rank is reported. -/
def rank : Place → Nat
  | .var _ => 0
  | .instanceField .. => 1
  | .staticField _ => 2
  | .arraySlots _ => 3

end Place

namespace Solution

/-- Sizes and effort. How long the analysis took is for the caller to say. -/
def stats (s : Solution) (durationMs : Float) : AnalysisStats where
  reachableMethods := s.reachableMethods.size
  csMethods := s.state.callGraph.reachable.length
  contexts := s.arena.contexts.size
  csObjects := s.arena.objects.size
  pointers := s.arena.pointers.size
  flowEdges := s.state.flow.edgeCount
  callEdges := s.state.callGraph.edges.length
  arrivals := s.state.stats.arrivals
  propagations := s.state.stats.propagations
  dispatchMisses := s.state.stats.dispatchMisses
  durationMs := durationMs

/-- The objects of a place, described. -/
def described (s : Solution) (p : Program) (place : Place) : List String :=
  (s.pointsTo place).toList.filterMap fun o => (s.heap.object? o).map (·.describe p)

/-- The heap places that point to something, by rising rank. -/
def heapPlaces (s : Solution) : List Place :=
  [1, 2, 3].flatMap fun r => s.places.filter (·.rank = r)

/-- The report on a solution of program `p`. -/
def summary (s : Solution) (p : Program) (durationMs : Float) : Summary where
  selector := s.selectorName
  stats := s.stats durationMs
  reachableMethods := s.reachableMethods.toList.map p.signature
  callEdges := (s.callGraph.edges.map fun e =>
    ⟨p.signature e.site.method, e.site.text, p.signature e.callee, e.kind⟩).mergeSort NamedEdge.le
  varPointsTo := .ofList (s.places.filterMap fun place =>
    place.var?.map fun v => (p.varName v, s.described p place))
  fieldPointsTo := .ofList (s.heapPlaces.filterMap fun place =>
    (place.heapName? p s.heap).map (·, s.described p place))

end Solution

end PointsTo
