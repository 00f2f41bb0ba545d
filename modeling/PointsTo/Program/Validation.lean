import PointsTo.Check
import PointsTo.Program.Hierarchy

/-!
# Checking a program

`Program.validate` checks every cross reference: ids are positions, every id that is used names
something, names are unique, classes and methods agree on who declares what, the hierarchy has no
cycle, bodies use their own method's variables only, instance methods have a receiver variable and
instance calls a receiver. It stops at the first fault in the order of the tables: classes, the
hierarchy, fields, variables, methods, root class, entry.
-/

namespace PointsTo.Program

/-- One entry of the method table of class `c`. -/
def checkListed (p : Program) (c : ClassDecl) (subsignature : String) (m : MethodId) :
    Except ProgramError Unit :=
  match p.method? m with
  | none => throw (.danglingMethod (.inClass m c.name))
  | some d => require (d.owner = c.id && d.subsignature = subsignature)
      (.malformed (.mislistedMethod c.name m subsignature d.subsignature d.owner))

/-- The class at position `i`. -/
def checkClass (p : Program) (c : ClassDecl) (i : Nat) : Except ProgramError Unit := do
  require (c.id = i) (.malformed (.misplacedClass c.name c.id i))
  require ((p.classes.toList.take i).all (·.name ≠ c.name)) (.malformed (.duplicateClass c.name))
  c.supertypes.forM fun s => require (s < p.classes.size) (.danglingClass s)
  c.methods.entries.forM fun (subsignature, m) => p.checkListed c subsignature m

/-- The field at position `i`. -/
def checkField (p : Program) (f : FieldDecl) (i : Nat) : Except ProgramError Unit := do
  require (f.id = i) (.malformed (.misplacedField f.name f.id i))
  require (f.owner < p.classes.size) (.danglingClass f.owner)

/-- The variable at position `i`. -/
def checkVar (p : Program) (v : VarDecl) (i : Nat) : Except ProgramError Unit := do
  require (v.id = i && v.method < p.methods.size) (.malformed (.misplacedVar v.name v.id))
  require ((p.vars.toList.take i).all fun u => u.method ≠ v.method || u.name ≠ v.name)
    (.malformed (.duplicateVar v.name v.method))

/-- The classes and fields that a statement of method `m` names, and the receiver of a call. -/
def checkStmt (p : Program) (m : MethodDecl) : Stmt → Except ProgramError Unit
  | .new _ ty => require (ty.baseClass < p.classes.size) (.danglingClass ty.baseClass)
  | .loadStatic _ f | .storeStatic f _ | .loadField _ _ f | .storeField _ f _ =>
    require (f < p.fields.size) (.danglingField f)
  | .call c => do
    require (c.target.owner < p.classes.size) (.danglingClass c.target.owner)
    require (c.isStatic || c.receiver.isSome)
      (.malformed (.missingReceiver c.mode c.target.subsignature (p.signatureOf m)))
  | .copy .. | .loadArray .. | .storeArray .. => pure ()

/-- Every variable that a method mentions: receiver, parameters, results, then its body. -/
def mentionedVars (m : MethodDecl) : List VarId :=
  m.this.toList ++ m.params ++ m.returns ++ m.body.flatMap Stmt.vars

/-- The variables that a method mentions must exist and be its own. -/
def checkMentioned (p : Program) (m : MethodDecl) : Except ProgramError Unit := do
  (mentionedVars m).forM fun v => require (v < p.vars.size) (.danglingVar v)
  (mentionedVars m).forM fun v =>
    match p.var? v with
    | none => pure ()
    | some d => require (d.method = m.id)
        (.malformed (.foreignVar (p.signatureOf m) d.name d.method))

/-- The method at position `i`. -/
def checkMethod (p : Program) (m : MethodDecl) (i : Nat) : Except ProgramError Unit := do
  require (m.id = i) (.malformed (.misplacedMethod m.subsignature m.id i))
  require (m.owner < p.classes.size) (.danglingClass m.owner)
  require (p.declared? m.owner m.subsignature = some m.id)
    (.malformed (.unlistedMethod m.id m.subsignature m.owner))
  require (m.isStatic || m.this.isSome) (.missingThis (p.signatureOf m))
  m.body.forM (p.checkStmt m)
  p.checkMentioned m

/-- The root class and the entry. -/
def checkRoots (p : Program) : Except ProgramError Unit := do
  p.rootClass.toList.forM fun c => require (c < p.classes.size) (.danglingClass c)
  p.entry.toList.forM fun m => require (m < p.methods.size) (.danglingMethod (.asEntry m))

/-- Check every cross reference of the program. -/
def validate (p : Program) : Except ProgramError Unit := do
  p.classes.toList.zipIdx.forM fun (c, i) => p.checkClass c i
  p.checkAcyclic.mapError .malformed
  p.fields.toList.zipIdx.forM fun (f, i) => p.checkField f i
  p.vars.toList.zipIdx.forM fun (v, i) => p.checkVar v i
  p.methods.toList.zipIdx.forM fun (m, i) => p.checkMethod m i
  p.checkRoots

end PointsTo.Program
