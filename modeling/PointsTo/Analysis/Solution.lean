import PointsTo.Analysis.Basic

/-!
# Reading a solution

A solution can be read at two levels: under contexts, with ids replaced by what they stand for, and
with contexts erased. Erasing the context of a pointer leaves a `Place`; what a place points to is the
union over its pointers, with the heap contexts of the objects erased as well.
-/

namespace PointsTo

/-- A pointer without contexts. -/
inductive Place where
  | var (v : VarId)
  /-- A field of an abstract object. -/
  | instanceField (o : ObjId) (f : FieldId)
  | staticField (f : FieldId)
  /-- The slots of an abstract array. -/
  | arraySlots (o : ObjId)
deriving DecidableEq

namespace Arena

/-- The place of a pointer. -/
def place? (a : Arena) : Pointer → Option Place
  | .var _ v => some (.var v)
  | .instanceField base f => (a.objects.get? base).map fun o => .instanceField o.object f
  | .staticField f => some (.staticField f)
  | .arraySlots array => (a.objects.get? array).map fun o => .arraySlots o.object

/-- The objects of a points-to set under their heap contexts, in the order of the ids. -/
def objectsIn (a : Arena) (s : PointsToSet) : List CSObj := s.toList.filterMap a.objects.get?

/-- The abstract objects of a points-to set. -/
def erase (a : Arena) (s : PointsToSet) : IdSet := .ofList ((a.objectsIn s).map (·.object))

end Arena

namespace Solution

/-! ## Under contexts -/

/-- Everything interned, and the points-to sets. -/
def arena (s : Solution) : Arena := s.state.arena

/-- The entry methods under the entry context. -/
def entries (s : Solution) : List CSMethod := s.state.callGraph.entries.filterMap s.arena.methods.get?

/-- The reachable methods under their contexts, in the order of discovery. -/
def reachable (s : Solution) : List CSMethod :=
  s.state.callGraph.reachable.filterMap s.arena.methods.get?

/-- The call edges, in the order of discovery. -/
def callEdges (s : Solution) : List (CallEdge CSSite CSMethod) :=
  s.state.callGraph.edges.filterMap fun e => do
    pure ⟨e.kind, ← s.arena.sites.get? e.site, ← s.arena.methods.get? e.callee⟩

/-- The contexts under which a method is reachable. -/
def contextsOf (s : Solution) (m : MethodId) : List Context :=
  (s.reachable.filter (·.method = m)).filterMap (s.arena.contexts.get? ·.context)

/-- What a pointer points to. -/
def objectsAt (s : Solution) (p : Pointer) : List CSObj := s.arena.objectsIn (s.arena.pointsToOf p)

/-- The flow edges, by source. -/
def flowEdges (s : Solution) : List (Pointer × Pointer) :=
  s.state.flow.edges.filterMap fun (source, target) => do
    pure (← s.arena.pointers.get? source, ← s.arena.pointers.get? target)

/-! ## Without contexts -/

/-- What a place points to. -/
def pointsTo (s : Solution) (place : Place) : IdSet :=
  (s.arena.pointerSets.filter fun (p, _) => s.arena.place? p = some place).foldl
    (fun found (_, objects) => found.union (s.arena.erase objects)) ∅

/-- What a variable points to. -/
def varPointsTo (s : Solution) (v : VarId) : IdSet := s.pointsTo (.var v)

/-- What a field of an object points to. -/
def fieldPointsTo (s : Solution) (o : ObjId) (f : FieldId) : IdSet := s.pointsTo (.instanceField o f)

/-- What a static field points to. -/
def staticPointsTo (s : Solution) (f : FieldId) : IdSet := s.pointsTo (.staticField f)

/-- What the slots of an array point to. -/
def arrayPointsTo (s : Solution) (o : ObjId) : IdSet := s.pointsTo (.arraySlots o)

/-- The places that point to something, each once. -/
def places (s : Solution) : List Place :=
  ((s.arena.pointerSets.filter fun (_, objects) => !objects.isEmpty).filterMap
    fun (p, _) => s.arena.place? p).eraseDups

/-- May two variables point to the same object? -/
def mayAlias (s : Solution) (v w : VarId) : Bool := (s.varPointsTo v).meets (s.varPointsTo w)

/-- The reachable methods. -/
def reachableMethods (s : Solution) : IdSet := .ofList (s.reachable.map (·.method))

/-- Is a method reachable under some context? -/
def isReachable (s : Solution) (m : MethodId) : Bool := s.reachable.any (·.method = m)

/-- The methods that a site calls under some context. -/
def callees (s : Solution) (site : Site) : IdSet :=
  .ofList ((s.callEdges.filter (·.site.site = site)).map (·.callee.method))

/-- The call graph without contexts. -/
def callGraph (s : Solution) : CallGraph Site MethodId :=
  let g := (s.entries.map (·.method)).foldl .addEntry ∅
  let g := (s.reachable.map (·.method)).foldl .addReachable g
  (s.callEdges.map fun e => ⟨e.kind, e.site.site, e.callee.method⟩).foldl .addEdge g

end Solution

/-- A directed graph over methods; edges name their ends by position. -/
structure MethodGraph where
  nodes : List MethodId
  /-- Source, target and kind of each edge. -/
  edges : List (Nat × Nat × EdgeKind)
deriving DecidableEq

namespace CallGraph

/-- The graph of the reachable methods, with one edge for each call edge between two of them. -/
def methodGraph (g : CallGraph Site MethodId) : MethodGraph where
  nodes := g.reachable
  edges := g.edges.filterMap fun e => do
    pure (← g.reachable.idxOf? e.site.method, ← g.reachable.idxOf? e.callee, e.kind)

end CallGraph

end PointsTo
