import PointsTo.Program.Index

/-!
# Finding a method by its written name

A method is written `<Class: subsignature>` or `Class.name`. Text in angle brackets is always taken as
the first form; it is cut at the first `: `, so that the subsignature may hold one too. Other text is
cut at its last dot, since class names hold dots and method names do not.
-/

namespace PointsTo

/-- The two ways to write a method. -/
inductive MethodName where
  /-- `<Class: subsignature>` -/
  | signature (className subsignature : String)
  /-- `Class.name` -/
  | dotted (className name : String)
deriving DecidableEq

namespace MethodName

/-- What stands between angle brackets, if the text starts and ends with one. -/
def bracketed? (cs : List Char) : Option (List Char) :=
  match cs with
  | '<' :: rest => if rest.getLast? = some '>' then some rest.dropLast else none
  | _ => none

/-- The written name of a method, if the text is one. -/
def parse? (text : String) : Option MethodName :=
  match bracketed? text.toList with
  | some inner => (Text.cutFirst [':', ' '] inner).map fun (c, s) =>
      .signature (String.ofList c) (String.ofList s)
  | none => (Text.cutLast '.' text.toList).map fun (c, n) =>
      .dotted (String.ofList c) (String.ofList n)

end MethodName

namespace IndexedProgram

/-- The method that a written name stands for; of several with one simple name, the first. -/
def methodNamed? (p : IndexedProgram) (text : String) : Option MethodId := do
  match ← MethodName.parse? text with
  | .signature className subsignature =>
    let c ← p.classNamed? className
    p.declared? c subsignature
  | .dotted className name =>
    let c ← p.classNamed? className
    let m ← p.methods.toList.find? fun m => m.owner = c && m.name = name
    pure m.id

end IndexedProgram

end PointsTo
