import PointsTo.Collection.NameMap

/-!
# Whole programs of an object-oriented language

A program is a class hierarchy with fields, methods and local variables. Entities refer to each other
by id, and an id is meant to be the position of its entity in the program's table; nothing here
enforces that, it is what validation checks. Look-ups therefore answer with an `Option`.

A method body is a list of statements whose order does not matter to the analyses: each statement may
run any number of times. A statement is named by its `Site`, the method and the position in its body.
-/

namespace PointsTo

/-- Position of a class in the program's class table. -/
abbrev ClassId := Nat

/-- Position of a field in the program's field table. -/
abbrev FieldId := Nat

/-- Position of a method in the program's method table. -/
abbrev MethodId := Nat

/-- Position of a variable in the program's variable table. -/
abbrev VarId := Nat

/-- Where a statement stands. -/
structure Site where
  /-- The method whose body holds the statement. -/
  method : MethodId
  /-- The position of the statement in that body. -/
  index : Nat
deriving DecidableEq, Inhabited

/-- The type of an allocated object. -/
inductive TypeRef where
  /-- Instances of a class. -/
  | ofClass (c : ClassId)
  | arrayOf (elem : TypeRef)
deriving DecidableEq, Inhabited

/-- How a call chooses its target. -/
inductive CallMode where
  /-- The method declared in the class named at the call. -/
  | static
  /-- Upward search from the class named at the call. -/
  | special
  /-- Upward search from the class of the receiver. -/
  | virtual
  /-- As `virtual`, for a call through an interface. -/
  | interface
  /-- As `virtual`, for a call whose target is linked at run time. -/
  | dynamic
deriving DecidableEq, Inhabited

/-- A method as a call names it. -/
structure MethodRef where
  /-- The class named at the call. -/
  owner : ClassId
  /-- Name, parameter types and result type, without the class. -/
  subsignature : String
deriving DecidableEq, Inhabited

/-- A call statement. -/
structure Call where
  /-- How the target is chosen. -/
  mode : CallMode
  /-- The method as named at the call. -/
  target : MethodRef
  /-- The variable holding the receiver; static calls have none. -/
  receiver : Option VarId
  args : List VarId
  /-- The variable that takes the result. -/
  result : Option VarId
deriving DecidableEq, Inhabited

/-- The statements that can move object references. -/
inductive Stmt where
  /-- `lhs = new ty` -/
  | new (lhs : VarId) (ty : TypeRef)
  /-- `lhs = rhs` -/
  | copy (lhs rhs : VarId)
  /-- `lhs = C.field` -/
  | loadStatic (lhs : VarId) (field : FieldId)
  /-- `C.field = rhs` -/
  | storeStatic (field : FieldId) (rhs : VarId)
  /-- `lhs = base.field` -/
  | loadField (lhs base : VarId) (field : FieldId)
  /-- `base.field = rhs` -/
  | storeField (base : VarId) (field : FieldId) (rhs : VarId)
  /-- `lhs = base[i]` -/
  | loadArray (lhs base : VarId)
  /-- `base[i] = rhs` -/
  | storeArray (base rhs : VarId)
  | call (c : Call)
deriving DecidableEq, Inhabited

/-- A class or an interface. -/
structure ClassDecl where
  id : ClassId
  /-- Its name, with any package part. -/
  name : String
  superclass : Option ClassId
  /-- The interfaces it implements, or extends if it is an interface. -/
  interfaces : List ClassId
  isInterface : Bool
  isAbstract : Bool
  /-- The methods it declares itself, by subsignature. -/
  methods : NameMap MethodId
deriving DecidableEq, Inhabited

/-- A field. -/
structure FieldDecl where
  id : FieldId
  name : String
  owner : ClassId
  isStatic : Bool
deriving DecidableEq, Inhabited

/-- A method with its body. -/
structure MethodDecl where
  id : MethodId
  owner : ClassId
  /-- Name, parameter types and result type, without the class. -/
  subsignature : String
  isStatic : Bool
  /-- Is it abstract, so that no call can end in it? -/
  isAbstract : Bool
  /-- The variable holding the receiver. -/
  this : Option VarId
  params : List VarId
  /-- The variables it may return. -/
  returns : List VarId
  body : List Stmt
deriving DecidableEq, Inhabited

/-- A local variable. -/
structure VarDecl where
  id : VarId
  name : String
  method : MethodId
deriving DecidableEq, Inhabited

/-- A whole program. -/
structure Program where
  /-- Classes and interfaces. -/
  classes : Array ClassDecl
  fields : Array FieldDecl
  methods : Array MethodDecl
  /-- Local variables of all methods. -/
  vars : Array VarDecl
  /-- The method where execution starts. -/
  entry : Option MethodId
  /-- The class whose methods arrays inherit. -/
  rootClass : Option ClassId
deriving DecidableEq, Inhabited

namespace TypeRef

/-- The class of an instance type; arrays have none of their own. -/
def class? : TypeRef → Option ClassId
  | ofClass c => some c
  | arrayOf _ => none

/-- The class below all array dimensions. -/
def baseClass : TypeRef → ClassId
  | ofClass c => c
  | arrayOf elem => elem.baseClass

end TypeRef

namespace Call

/-- Is it a static call? -/
def isStatic (c : Call) : Bool := c.mode = .static

/-- Every variable the call mentions: receiver, arguments, result. -/
def vars (c : Call) : List VarId := c.receiver.toList ++ c.args ++ c.result.toList

end Call

namespace Stmt

/-- The call, if the statement is one. -/
def call? : Stmt → Option Call
  | call c => some c
  | _ => none

/-- Every variable the statement mentions. -/
def vars : Stmt → List VarId
  | new lhs _ => [lhs]
  | copy lhs rhs => [lhs, rhs]
  | loadStatic lhs _ => [lhs]
  | storeStatic _ rhs => [rhs]
  | loadField lhs base _ => [lhs, base]
  | storeField base _ rhs => [rhs, base]
  | loadArray lhs base => [lhs, base]
  | storeArray base rhs => [rhs, base]
  | call c => c.vars

end Stmt

namespace ClassDecl

/-- A class named `name` that declares and inherits nothing. -/
def plain (id : ClassId) (name : String) : ClassDecl :=
  { id, name, superclass := none, interfaces := [], isInterface := false, isAbstract := false,
    methods := ∅ }

/-- The superclass and the interfaces, the superclass first. -/
def supertypes (c : ClassDecl) : List ClassId := c.superclass.toList ++ c.interfaces

end ClassDecl

namespace MethodDecl

/-- The number of parameters. -/
def arity (m : MethodDecl) : Nat := m.params.length

/-- The statements of the body with their sites. -/
def sites (m : MethodDecl) : List (Site × Stmt) :=
  m.body.zipIdx.map fun (stmt, i) => (⟨m.id, i⟩, stmt)

end MethodDecl

namespace Program

/-- The program without entities. -/
def empty : Program := ⟨#[], #[], #[], #[], none, none⟩

/-- The class of an id. -/
def class? (p : Program) (c : ClassId) : Option ClassDecl := p.classes[c]?

/-- The field of an id. -/
def field? (p : Program) (f : FieldId) : Option FieldDecl := p.fields[f]?

/-- The method of an id. -/
def method? (p : Program) (m : MethodId) : Option MethodDecl := p.methods[m]?

/-- The variable of an id. -/
def var? (p : Program) (v : VarId) : Option VarDecl := p.vars[v]?

/-- The statement at a site. -/
def stmt? (p : Program) (s : Site) : Option Stmt := (p.method? s.method).bind (·.body[s.index]?)

/-- The number of statements of all methods. -/
def stmtCount (p : Program) : Nat := (p.methods.toList.flatMap (·.body)).length

/-- The method that class `c` itself declares under a subsignature. -/
def declared? (p : Program) (c : ClassId) (subsignature : String) : Option MethodId :=
  (p.class? c).bind (·.methods.get? subsignature)

/-- The superclass of a class. -/
def superclass? (p : Program) (c : ClassId) : Option ClassId := (p.class? c).bind (·.superclass)

/-- The direct supertypes of a class, the superclass first. -/
def supertypes (p : Program) (c : ClassId) : List ClassId :=
  ((p.class? c).map (·.supertypes)).getD []

end Program

end PointsTo
