import PointsTo.Program.Error
import PointsTo.Program.Naming

/-!
# From a call to its target

A method is inherited from the nearest class above the receiver's class that declares it without
leaving it abstract. `dispatch` finds it by walking up the superclasses; the walk takes at most as many
steps as there are classes, which is all of them when the hierarchy is acyclic.
-/

namespace PointsTo.Program

/-- The method that class `c` itself declares under a subsignature, unless it is abstract. -/
def concrete? (p : Program) (c : ClassId) (subsignature : String) : Option MethodId :=
  (p.declared? c subsignature).filter fun m => (p.method? m).any (!·.isAbstract)

/-- The first concrete method on the superclass chain of `c`, within `steps` classes. -/
def dispatchWithin (p : Program) (subsignature : String) : (steps : Nat) → (c : ClassId) →
    Option MethodId
  | 0, _ => none
  | n + 1, c => (p.concrete? c subsignature).or
      ((p.superclass? c).bind (dispatchWithin p subsignature n))

/-- The method that an object of class `c` runs for a subsignature. -/
def dispatch (p : Program) (c : ClassId) (subsignature : String) : Option MethodId :=
  p.dispatchWithin subsignature p.classes.size c

/-- The target of a static call, which the named class must declare itself. -/
def resolveStatic (p : Program) (c : Call) : Except ProgramError MethodId :=
  match p.declared? c.target.owner c.target.subsignature with
  | some m => pure m
  | none =>
    throw (.danglingMethod (.atCall (p.className c.target.owner) c.target.subsignature))

/-- The class whose methods an object of a type has. Arrays have those of the root class. -/
def dispatchClass? (p : Program) : TypeRef → Option ClassId
  | .ofClass c => some c
  | .arrayOf _ => p.rootClass

/-- The target of a call on a receiver of type `ty`. -/
def resolve? (p : Program) (ty : TypeRef) (c : Call) : Option MethodId :=
  match c.mode with
  | .static => p.declared? c.target.owner c.target.subsignature
  | .special => p.dispatch c.target.owner c.target.subsignature
  | .virtual | .interface | .dynamic =>
    (p.dispatchClass? ty).bind (p.dispatch · c.target.subsignature)

end PointsTo.Program
