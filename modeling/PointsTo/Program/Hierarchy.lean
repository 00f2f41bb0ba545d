import PointsTo.Program.Error
import PointsTo.Program.Naming

/-!
# The class hierarchy

A class is below its superclass and its interfaces. `isSubtype` follows those steps upward, and
`checkAcyclic` refuses a hierarchy in which they lead back to where they started.

Both walks are bounded by the number of classes: a path without repetition is no longer than that, and
in an acyclic hierarchy every path is without repetition.
-/

namespace PointsTo.Program

/-- Is `sup` reached from `c` by at most `steps` steps to a direct supertype? -/
def climbs (p : Program) (sup : ClassId) : (steps : Nat) → (c : ClassId) → Bool
  | 0, c => c == sup
  | n + 1, c => c == sup || (p.supertypes c).any (climbs p sup n)

/-- Is `sub` the class `sup` or below it? -/
def isSubtype (p : Program) (sub sup : ClassId) : Bool := p.climbs sup p.classes.size sub

/-- Depth-first search upward from `c`. `path` holds the classes below `c` on the current path, `done`
those whose supertypes are all searched. A step back onto the path closes a cycle. -/
def searchCycle (p : Program) : (depth : Nat) → (path done : List ClassId) → (c : ClassId) →
    Except Malformation (List ClassId)
  | 0, _, done, _ => pure done
  | n + 1, path, done, c => do
    let done ← (p.supertypes c).foldlM (fun done sup =>
      if sup ∈ c :: path then throw (.cyclicHierarchy (p.className c) (p.className sup))
      else if sup ∈ done then pure done
      else searchCycle p n (c :: path) done sup) done
    pure (c :: done)

/-- Refuse a hierarchy with a cycle, searching from each class in turn. -/
def checkAcyclic (p : Program) : Except Malformation Unit := do
  let _ ← (List.range p.classes.size).foldlM (fun done c =>
    if c ∈ done then pure done else p.searchCycle p.classes.size [] done c) []

end PointsTo.Program
