import PointsTo.CallGraph.Basic
import PointsTo.Collection.IdSet
import PointsTo.Error
import PointsTo.Program.Dispatch
import PointsTo.Program.Index

/-!
# The call graph of the class hierarchy

Without knowing which objects exist, an instance call may reach what any class below the one named at
the call would run. `targets` collects those methods, and `hierarchyGraph` follows them breadth first
from the entries.

Both searches proceed in rounds, each of which settles one class or method not met before, so there
are no more rounds than classes or methods.
-/

namespace PointsTo

namespace IndexedProgram

/-- The classes directly below `c`: subclasses, then implementors, then subinterfaces. -/
def directSubtypes (p : IndexedProgram) (c : ClassId) : List ClassId :=
  p.subclasses c ++ p.implementors c ++ p.subinterfaces c

/-- Breadth-first search downward: `seen` lists the classes met, `queue` those to look at. -/
def collectSubtypes (p : IndexedProgram) : (rounds : Nat) → (seen queue : List ClassId) → List ClassId
  | 0, seen, _ => seen
  | n + 1, seen, queue =>
    match queue.dropWhile (· ∈ seen) with
    | [] => seen
    | c :: rest => collectSubtypes p n (seen ++ [c]) (rest ++ p.directSubtypes c)

/-- The class `c` and everything below it, nearest first. -/
def subtypes (p : IndexedProgram) (c : ClassId) : List ClassId :=
  p.collectSubtypes (p.classes.size + 1) [] [c]

/-- The methods that a call may reach, as far as the hierarchy tells. -/
def targets (p : IndexedProgram) (c : Call) : Except ProgramError IdSet :=
  match c.mode with
  | .static => do pure (.singleton (← p.resolveStatic c))
  | .special => pure (.ofList (p.dispatch c.target.owner c.target.subsignature).toList)
  | .virtual | .interface | .dynamic =>
    pure (.ofList ((p.subtypes c.target.owner).filterMap (p.dispatch · c.target.subsignature)))

/-- A call graph under construction, with the methods to look at. -/
structure HierarchySearch where
  graph : CallGraph Site MethodId
  /-- The methods to look at. -/
  queue : List MethodId

/-- Add the edges of one call and queue its targets. -/
def followCall (p : IndexedProgram) (site : Site) (c : Call) (s : HierarchySearch) :
    Except ProgramError HierarchySearch := do
  let found := (← p.targets c).toList
  pure {
    graph := found.foldl (fun g m => g.addEdge ⟨.ofMode c.mode, site, m⟩) s.graph
    queue := s.queue ++ found }

/-- Make `m` reachable and follow the calls in its body. -/
def followMethod (p : IndexedProgram) (m : MethodId) (d : MethodDecl) (s : HierarchySearch) :
    Except ProgramError HierarchySearch :=
  d.body.zipIdx.foldlM (fun s (stmt, i) =>
    match stmt with
    | .call c => p.followCall ⟨m, i⟩ c s
    | _ => pure s) { s with graph := s.graph.addReachable m }

/-- Follow calls until no method is left to look at. -/
def followCalls (p : IndexedProgram) : (rounds : Nat) → HierarchySearch →
    Except AnalysisError (CallGraph Site MethodId)
  | 0, s => pure s.graph
  | n + 1, s =>
    match s.queue.dropWhile (s.graph.reaches ·) with
    | [] => pure s.graph
    | m :: rest =>
      match p.method? m with
      | none => throw .unknownId
      | some d => do
        let s ← (p.followMethod m d { s with queue := rest }).mapError .program
        followCalls p n s

/-- The call graph of the hierarchy from the given entries. -/
def graphFrom (p : IndexedProgram) (entries : List MethodId) :
    Except AnalysisError (CallGraph Site MethodId) :=
  if entries.isEmpty then throw .missingEntry
  else do
    p.validate.mapError .program
    p.ensureFresh.mapError .program
    p.followCalls (p.methods.size + 1)
      { graph := entries.foldl .addEntry ∅, queue := entries }

/-- The call graph of the hierarchy from the program's entry and further ones. -/
def hierarchyGraph (p : IndexedProgram) (more : List MethodId) :
    Except AnalysisError (CallGraph Site MethodId) :=
  p.graphFrom ((p.entry.toList ++ more).eraseDups)

end IndexedProgram

end PointsTo
