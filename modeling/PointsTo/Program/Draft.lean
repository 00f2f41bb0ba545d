import PointsTo.Program.Edit

/-!
# Writing programs

A program is drafted step by step: each step adds an entity, whose id is the next position of its
table, or changes one. A body is written together with the variables it declares, so a variable always
belongs to the method that declared it. `Draft.build` checks the outcome and indexes it.

```
def oneCall : Draft MethodId := do
  let a ← Draft.addClass "A"
  let (_, _) ← Draft.addMethod a "void run()" fun _ => pure ()
  let (main, _) ← Draft.addStaticMethod a "void main()" do
    let x ← Body.addVar "x"
    let _ ← Body.addStmt (.new x (.ofClass a))
    Body.addStmt (.call (.onReceiver .virtual x a "void run()" [] none))
  Draft.setEntry main
  pure main
```
-/

namespace PointsTo

/-- Steps that write a program. -/
abbrev Draft := StateM Program

/-- A method whose body is being written, with all variables of the program. -/
structure OpenMethod where
  method : MethodDecl
  vars : Array VarDecl

/-- Steps that write a body. -/
abbrev Body := StateM OpenMethod

namespace Call

/-- A static call. -/
def onClass (owner : ClassId) (subsignature : String) (args : List VarId)
    (result : Option VarId) : Call :=
  { mode := .static, target := ⟨owner, subsignature⟩, receiver := none, args, result }

/-- A call on a receiver. -/
def onReceiver (mode : CallMode) (receiver : VarId) (owner : ClassId) (subsignature : String)
    (args : List VarId) (result : Option VarId) : Call :=
  { mode, target := ⟨owner, subsignature⟩, receiver := some receiver, args, result }

end Call

namespace Body

/-- The method whose body is written. -/
def methodId : Body MethodId := do pure (← get).method.id

/-- Declare a variable. -/
def addVar (name : String) : Body VarId :=
  modifyGet fun b =>
    let id := b.vars.size
    (id, { b with vars := b.vars.push { id, name, method := b.method.id } })

/-- Declare the next parameter. -/
def addParam (name : String) : Body VarId := do
  let v ← addVar name
  modify fun b => { b with method := { b.method with params := b.method.params ++ [v] } }
  pure v

/-- Declare the variable that holds the receiver. -/
def addThis : Body VarId := do
  let v ← addVar "this"
  modify fun b => { b with method := { b.method with this := some v } }
  pure v

/-- Let the method return a variable. -/
def addReturn (v : VarId) : Body Unit :=
  modify fun b => { b with method := { b.method with returns := b.method.returns ++ [v] } }

/-- Put a statement at the end of the body. -/
def addStmt (s : Stmt) : Body Site :=
  modifyGet fun b =>
    (⟨b.method.id, b.method.body.length⟩,
      { b with method := { b.method with body := b.method.body ++ [s] } })

end Body

namespace Draft

/-! ## Hierarchy -/

/-- Add a class without a superclass. -/
def addClass (name : String) : Draft ClassId :=
  modifyGet fun p => (p.classes.size, { p with classes := p.classes.push (.plain p.classes.size name) })

/-- Change a class. -/
def modifyClass (c : ClassId) (f : ClassDecl → ClassDecl) : Draft Unit := modify (·.modifyClass c f)

/-- Add a class with a superclass. -/
def addSubclass (name : String) (superclass : ClassId) : Draft ClassId := do
  let c ← addClass name
  modifyClass c ({ · with superclass := some superclass })
  pure c

/-- Add an interface; interfaces are abstract. -/
def addInterface (name : String) : Draft ClassId := do
  let c ← addClass name
  modifyClass c ({ · with isInterface := true, isAbstract := true })
  pure c

/-- Let a class implement an interface, or an interface extend one. -/
def implement (c interface : ClassId) : Draft Unit :=
  modifyClass c fun d => { d with interfaces := d.interfaces ++ [interface] }

/-- Make a class abstract. -/
def markAbstract (c : ClassId) : Draft Unit := modifyClass c ({ · with isAbstract := true })

/-- Let arrays inherit the methods of a class. -/
def setRootClass (c : ClassId) : Draft Unit := modify ({ · with rootClass := some c })

/-- Let execution start in a method. -/
def setEntry (m : MethodId) : Draft Unit := modify ({ · with entry := some m })

/-- Add a field, static or not. -/
def addFieldOf (isStatic : Bool) (owner : ClassId) (name : String) : Draft FieldId :=
  modifyGet fun p =>
    let id := p.fields.size
    (id, { p with fields := p.fields.push { id, name, owner, isStatic } })

/-- Add a field of objects. -/
def addField : ClassId → String → Draft FieldId := addFieldOf false

/-- Add a static field. -/
def addStaticField : ClassId → String → Draft FieldId := addFieldOf true

/-! ## Methods -/

/-- Add a method and write its body, and enter it in the table of its class, if there is that class. -/
def define {α : Type} (owner : ClassId) (subsignature : String) (isStatic isAbstract : Bool)
    (body : Body α) : Draft (MethodId × α) :=
  modifyGet fun p =>
    let id := p.methods.size
    let method : MethodDecl :=
      { id, owner, subsignature, isStatic, isAbstract, this := none, params := [], returns := []
        body := [] }
    let (a, written) := body.run ⟨method, p.vars⟩
    let q := { p with methods := p.methods.push written.method, vars := written.vars }
    ((id, a), q.modifyClass owner fun d => { d with methods := d.methods.insert subsignature id })

/-- Add a static method. -/
def addStaticMethod {α : Type} (owner : ClassId) (subsignature : String) (body : Body α) :
    Draft (MethodId × α) :=
  define owner subsignature true false body

/-- Add an instance method. Its body is given the variable that holds the receiver. -/
def addMethod {α : Type} (owner : ClassId) (subsignature : String) (body : VarId → Body α) :
    Draft (MethodId × α) :=
  define owner subsignature false false (Body.addThis >>= body)

/-- Add an abstract method with parameters `p0`, `p1` and so on. -/
def addAbstractMethod (owner : ClassId) (subsignature : String) (arity : Nat) :
    Draft (MethodId × Unit) :=
  define owner subsignature false true do
    let _ ← Body.addThis
    (List.range arity).forM fun i => do let _ ← Body.addParam s!"p{i}"

/-! ## The outcome -/

/-- The program that the steps write from nothing, checked and indexed. -/
def build {α : Type} (d : Draft α) : Except ProgramError IndexedProgram := (d.run .empty).2.check

end Draft

end PointsTo
