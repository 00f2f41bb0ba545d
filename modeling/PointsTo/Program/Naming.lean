import PointsTo.Program.Basic
import PointsTo.Text.Cut

/-!
# Names shown to people

Methods are shown as `<Class: subsignature>`, variables as `<Class: subsignature>/name`, arrays with
`[]` behind their element type. An id that names nothing is shown as `?`.
-/

namespace PointsTo

namespace Site

/-- The site as text, such as `m3#0`. -/
def text (s : Site) : String := s!"m{s.method}#{s.index}"

/-- The numbers by which sites are ordered. -/
def sortKey (s : Site) : List Nat := [s.method, s.index]

end Site

/-- The simple name in a subsignature: what stands before the parameter list and behind the result
type. -/
def simpleName (subsignature : String) : String :=
  let head := subsignature.toList.takeWhile (· ≠ '(')
  match Text.cutLast ' ' head with
  | some (_, name) => String.ofList name
  | none => String.ofList head

namespace MethodDecl

/-- The simple name of the method. -/
def name (m : MethodDecl) : String := simpleName m.subsignature

end MethodDecl

namespace Program

/-- The name of a class. -/
def className (p : Program) (c : ClassId) : String := ((p.class? c).map (·.name)).getD "?"

/-- The signature of a method of the program. -/
def signatureOf (p : Program) (m : MethodDecl) : String :=
  s!"<{p.className m.owner}: {m.subsignature}>"

/-- The signature of a method. -/
def signature (p : Program) (m : MethodId) : String := ((p.method? m).map p.signatureOf).getD "?"

/-- The name of a variable, with its method. -/
def varName (p : Program) (v : VarId) : String :=
  ((p.var? v).map fun d => s!"{p.signature d.method}/{d.name}").getD "?"

/-- The name of a field, without its class. -/
def fieldName (p : Program) (f : FieldId) : String := ((p.field? f).map (·.name)).getD "?"

/-- The name of a type. -/
def typeName (p : Program) : TypeRef → String
  | .ofClass c => p.className c
  | .arrayOf elem => p.typeName elem ++ "[]"

end Program

end PointsTo
