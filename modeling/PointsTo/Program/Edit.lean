import PointsTo.Program.Index

/-!
# Editing programs

Changes to one entity of a program. An id that is out of range changes nothing. An indexed program may
be edited as well, and keeps the index it had.
-/

namespace PointsTo

namespace Program

/-- The program with a class changed. -/
def modifyClass (p : Program) (c : ClassId) (f : ClassDecl → ClassDecl) : Program :=
  { p with classes := p.classes.modify c f }

/-- The program with a field changed. -/
def modifyField (p : Program) (f : FieldId) (g : FieldDecl → FieldDecl) : Program :=
  { p with fields := p.fields.modify f g }

/-- The program with a method changed. -/
def modifyMethod (p : Program) (m : MethodId) (f : MethodDecl → MethodDecl) : Program :=
  { p with methods := p.methods.modify m f }

/-- The program with a variable changed. -/
def modifyVar (p : Program) (v : VarId) (f : VarDecl → VarDecl) : Program :=
  { p with vars := p.vars.modify v f }

end Program

namespace IndexedProgram

/-- The program after an edit, with the index it had before. -/
def edit (p : IndexedProgram) (f : Program → Program) : IndexedProgram :=
  { p with toProgram := f p.toProgram }

end IndexedProgram

end PointsTo
