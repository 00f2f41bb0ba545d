import PointsTo.Program.Validation

/-!
# Indexed programs

An `Index` holds what the analyses look up all the time: the statements that use a variable as their
base or receiver, the classes directly below a class, and the class of a name. Each table is defined by
a filter over the program, so that what it holds can be read off.

An `IndexedProgram` is a program with an index made for it at some moment. Editing the program leaves
the index as it is, until `reindex` makes a new one.
-/

namespace PointsTo

/-- The statements that use a variable as the base of an access or the receiver of a call, each list
in program order. -/
structure VarUses where
  /-- Field stores into the object. -/
  storeFields : List Site
  /-- Field loads from the object. -/
  loadFields : List Site
  /-- Stores into the array. -/
  storeArrays : List Site
  loadArrays : List Site
  /-- Calls on the object. -/
  calls : List Site
deriving DecidableEq, Inhabited

namespace VarUses

/-- No use at all. -/
def none : VarUses := ⟨[], [], [], [], []⟩

end VarUses

/-- Tables derived from a program. -/
structure Index where
  varUses : Array VarUses
  /-- The classes that extend each class. -/
  subclasses : Array (List ClassId)
  /-- The classes that implement each interface, once for each time they list it. -/
  implementors : Array (List ClassId)
  /-- The interfaces that extend each interface, once for each time they list it. -/
  subinterfaces : Array (List ClassId)
  classIds : NameMap ClassId
  /-- The number of statements when the index was made. -/
  stmtCount : Nat
deriving DecidableEq, Inhabited

namespace Program

/-- The sites of the statements that pass a test, in program order. -/
def sitesWhere (p : Program) (test : Stmt → Bool) : List Site :=
  p.methods.toList.flatMap fun m => (m.sites.filter (test ·.2)).map (·.1)

/-- The statements that use `v` as base or receiver. -/
def usesOf (p : Program) (v : VarId) : VarUses where
  storeFields := p.sitesWhere fun
    | .storeField base _ _ => base = v
    | _ => false
  loadFields := p.sitesWhere fun
    | .loadField _ base _ => base = v
    | _ => false
  storeArrays := p.sitesWhere fun
    | .storeArray base _ => base = v
    | _ => false
  loadArrays := p.sitesWhere fun
    | .loadArray _ base => base = v
    | _ => false
  calls := p.sitesWhere fun
    | .call c => !c.isStatic && c.receiver = some v
    | _ => false

/-- The classes whose superclass is `c`. -/
def subclassesOf (p : Program) (c : ClassId) : List ClassId :=
  (p.classes.toList.filter (·.superclass = some c)).map (·.id)

/-- The classes, or the interfaces, that list `c` among their interfaces. -/
def listingInterface (p : Program) (interfaces : Bool) (c : ClassId) : List ClassId :=
  (p.classes.toList.filter (·.isInterface = interfaces)).flatMap fun d =>
    (d.interfaces.filter (· = c)).map fun _ => d.id

/-- The index of the program as it is now. -/
def makeIndex (p : Program) : Index where
  varUses := ((List.range p.vars.size).map p.usesOf).toArray
  subclasses := ((List.range p.classes.size).map p.subclassesOf).toArray
  implementors := ((List.range p.classes.size).map (p.listingInterface false)).toArray
  subinterfaces := ((List.range p.classes.size).map (p.listingInterface true)).toArray
  classIds := NameMap.ofList (p.classes.toList.map fun c => (c.name, c.id))
  stmtCount := p.stmtCount

end Program

/-- A program with an index that was made for it at some moment. -/
structure IndexedProgram extends Program where
  index : Index
deriving DecidableEq, Inhabited

namespace Program

/-- The program with an index of its own. -/
def indexed (p : Program) : IndexedProgram := ⟨p, p.makeIndex⟩

/-- The program, checked and indexed. -/
def check (p : Program) : Except ProgramError IndexedProgram := do
  p.validate
  pure p.indexed

end Program

namespace IndexedProgram

/-- The program with a new index. -/
def reindex (p : IndexedProgram) : IndexedProgram := p.toProgram.indexed

/-- Refuse an index whose sizes do not fit the program. -/
def ensureFresh (p : IndexedProgram) : Except ProgramError Unit :=
  require (p.index.varUses.size = p.vars.size && p.index.subclasses.size = p.classes.size
    && p.index.stmtCount = p.stmtCount) (.malformed .staleIndex)

/-- The indexed uses of a variable. -/
def uses (p : IndexedProgram) (v : VarId) : VarUses := p.index.varUses[v]?.getD .none

/-- The indexed direct subclasses of a class. -/
def subclasses (p : IndexedProgram) (c : ClassId) : List ClassId :=
  p.index.subclasses[c]?.getD []

/-- The indexed direct implementors of an interface. -/
def implementors (p : IndexedProgram) (c : ClassId) : List ClassId :=
  p.index.implementors[c]?.getD []

/-- The indexed direct subinterfaces of an interface. -/
def subinterfaces (p : IndexedProgram) (c : ClassId) : List ClassId :=
  p.index.subinterfaces[c]?.getD []

/-- The indexed class of a name. -/
def classNamed? (p : IndexedProgram) (name : String) : Option ClassId := p.index.classIds.get? name

end IndexedProgram

end PointsTo
