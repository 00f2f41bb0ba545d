import Mathlib.Data.List.Induction
import PointsTo.Program.Draft
import PointsTo.Proofs.Subtypes

/-!
# What steps write

A program is written by steps (`DraftStep`), each of them one call of a `Draft` function, and a body by steps
of its own (`BodyStep`). What a step does to each table is said once (`DraftStep.class?_after`,
`methods_after`, `vars_after` and their like), and with it what all steps together have written: a table is
the list of what the steps have added to it, each of them at its moment (`Draft.moments`), that is in the
program which the steps before it have written.
-/

namespace PointsTo

/-! ## Steps -/

/-- A step of writing a body. -/
inductive BodyStep where
  | var (name : String)
  | param (name : String)
  | ret (v : VarId)
  | stmt (s : Stmt)
deriving DecidableEq

/-- A step of writing a program. -/
inductive DraftStep where
  | newClass (name : String)
  | newSubclass (name : String) (superclass : ClassId)
  | newInterface (name : String)
  | implement (c interface : ClassId)
  | markAbstract (c : ClassId)
  | rootClass (c : ClassId)
  | entry (m : MethodId)
  | field (isStatic : Bool) (owner : ClassId) (name : String)
  | staticMethod (owner : ClassId) (subsignature : String) (body : List BodyStep)
  /-- An instance method; the variable that holds the receiver comes before those of the body. -/
  | method (owner : ClassId) (subsignature : String) (body : List BodyStep)
  | abstractMethod (owner : ClassId) (subsignature : String) (arity : Nat)
deriving DecidableEq

/-- Take a step. -/
def BodyStep.run : BodyStep → Body Unit
  | var name => discard (Body.addVar name)
  | param name => discard (Body.addParam name)
  | ret v => Body.addReturn v
  | stmt s => discard (Body.addStmt s)

/-- Take steps in turn. -/
def Body.ofSteps (steps : List BodyStep) : Body Unit := steps.forM BodyStep.run

/-- Take a step. -/
def DraftStep.run : DraftStep → Draft Unit
  | newClass name => discard (Draft.addClass name)
  | newSubclass name superclass => discard (Draft.addSubclass name superclass)
  | newInterface name => discard (Draft.addInterface name)
  | implement c interface => Draft.implement c interface
  | markAbstract c => Draft.markAbstract c
  | rootClass c => Draft.setRootClass c
  | entry m => Draft.setEntry m
  | field isStatic owner name => discard (Draft.addFieldOf isStatic owner name)
  | staticMethod owner subsignature body =>
    discard (Draft.addStaticMethod owner subsignature (Body.ofSteps body))
  | method owner subsignature body =>
    discard (Draft.addMethod owner subsignature fun _ => Body.ofSteps body)
  | abstractMethod owner subsignature arity => discard (Draft.addAbstractMethod owner subsignature arity)

/-- Take steps in turn. -/
def Draft.ofSteps (steps : List DraftStep) : Draft Unit := steps.forM DraftStep.run

/-- The program after a step. -/
def DraftStep.after (s : DraftStep) (p : Program) : Program := (s.run.run p).2

/-! ## Definitions -/

/-- A method as a step defines it. The body declares parameters and further variables. -/
structure Definition where
  owner : ClassId
  subsignature : String
  isStatic : Bool
  isAbstract : Bool
  body : List BodyStep

namespace BodyStep

/-- The name of the variable that a step declares. -/
def varName? : BodyStep → Option String
  | var name | param name => some name
  | ret _ | stmt _ => none

/-- The variable that a step lets the method return. -/
def ret? : BodyStep → Option VarId
  | ret v => some v
  | _ => none

/-- The statement that a step puts at the end. -/
def stmt? : BodyStep → Option Stmt
  | stmt s => some s
  | _ => none

/-- The parameters that steps declare, where `first` is the next variable. -/
def params (first : VarId) : List BodyStep → List VarId
  | [] => []
  | param _ :: steps => first :: params (first + 1) steps
  | var _ :: steps => params (first + 1) steps
  | ret _ :: steps | stmt _ :: steps => params first steps

end BodyStep

/-- Variables of a method, by name, from an id on. -/
def namedFrom (m : MethodId) (first : VarId) : List String → List VarDecl
  | [] => []
  | name :: names => ⟨first, name, m⟩ :: namedFrom m (first + 1) names

/-- Steps of a body add to what has been written. -/
theorem Body.run_ofSteps (steps : List BodyStep) (b : OpenMethod) :
    ((Body.ofSteps steps).run b).2 =
      { method := { b.method with
          params := b.method.params ++ BodyStep.params b.vars.size steps
          returns := b.method.returns ++ steps.filterMap BodyStep.ret?
          body := b.method.body ++ steps.filterMap BodyStep.stmt? }
        vars := b.vars ++ namedFrom b.method.id b.vars.size (steps.filterMap BodyStep.varName?) } := by
  induction steps generalizing b with
  | nil =>
    simp [ofSteps, BodyStep.params, namedFrom]
    rfl
  | cons s ss ih =>
    have hstep : ((Body.ofSteps (s :: ss)).run b).2 = ((Body.ofSteps ss).run (s.run.run b).2).2 := rfl
    rw [hstep, ih]
    cases s with
    | var name =>
      have hafter : ((BodyStep.var name).run.run b).2 =
          { b with vars := b.vars.push ⟨b.vars.size, name, b.method.id⟩ } := rfl
      simp [hafter, List.filterMap_cons, BodyStep.params, namedFrom, BodyStep.varName?, BodyStep.stmt?,
        BodyStep.ret?]
    | param name =>
      have hafter : ((BodyStep.param name).run.run b).2 =
          { method := { b.method with params := b.method.params ++ [b.vars.size] }
            vars := b.vars.push ⟨b.vars.size, name, b.method.id⟩ } := rfl
      simp [hafter, List.filterMap_cons, BodyStep.params, namedFrom, BodyStep.varName?, BodyStep.stmt?,
        BodyStep.ret?]
    | ret v =>
      have hafter : ((BodyStep.ret v).run.run b).2 =
          { b with method := { b.method with returns := b.method.returns ++ [v] } } := rfl
      simp [hafter, List.filterMap_cons, BodyStep.params, BodyStep.varName?, BodyStep.stmt?, BodyStep.ret?]
    | stmt t =>
      have hafter : ((BodyStep.stmt t).run.run b).2 =
          { b with method := { b.method with body := b.method.body ++ [t] } } := rfl
      simp [hafter, List.filterMap_cons, BodyStep.params, BodyStep.varName?, BodyStep.stmt?, BodyStep.ret?]

namespace Definition

/-- The variables that the method declares, by name. -/
def varNames (d : Definition) : List String :=
  (if d.isStatic then [] else ["this"]) ++ d.body.filterMap BodyStep.varName?

/-- The method under an id, with its variables from one on. -/
def decl (d : Definition) (id : MethodId) (first : VarId) : MethodDecl where
  id
  owner := d.owner
  subsignature := d.subsignature
  isStatic := d.isStatic
  isAbstract := d.isAbstract
  this := if d.isStatic then none else some first
  params := BodyStep.params (if d.isStatic then first else first + 1) d.body
  returns := d.body.filterMap BodyStep.ret?
  body := d.body.filterMap BodyStep.stmt?

end Definition

/-- The program with a method that has been written, entered in the table of a class. -/
def Program.enter (p : Program) (owner : ClassId) (subsignature : String) (written : OpenMethod) : Program :=
  { p with methods := p.methods.push written.method, vars := written.vars }.modifyClass owner fun c =>
    { c with methods := c.methods.insert subsignature p.methods.size }

/-- The program with one more method. -/
def Definition.enter (d : Definition) (p : Program) : Program :=
  p.enter d.owner d.subsignature
    ⟨d.decl p.methods.size p.vars.size, p.vars ++ namedFrom p.methods.size p.vars.size d.varNames⟩

namespace DraftStep

/-- The method that a step defines. -/
def definition? : DraftStep → Option Definition
  | staticMethod owner subsignature body => some ⟨owner, subsignature, true, false, body⟩
  | method owner subsignature body => some ⟨owner, subsignature, false, false, body⟩
  | abstractMethod owner subsignature arity =>
    some ⟨owner, subsignature, false, true, (List.range arity).map fun i => .param s!"p{i}"⟩
  | _ => none

theorem run_define (owner : ClassId) (subsignature : String) (isStatic isAbstract : Bool) (body : Body Unit)
    (p : Program) : ((Draft.define owner subsignature isStatic isAbstract body).run p).2 =
      p.enter owner subsignature (body.run
        ⟨⟨p.methods.size, owner, subsignature, isStatic, isAbstract, none, [], [], []⟩, p.vars⟩).2 :=
  rfl

theorem run_define_static (owner : ClassId) (subsignature : String) (body : List BodyStep) (p : Program) :
    ((Draft.define owner subsignature true false (Body.ofSteps body)).run p).2 =
      Definition.enter ⟨owner, subsignature, true, false, body⟩ p := by
  rw [run_define, Body.run_ofSteps]
  rfl

theorem run_define_instance (owner : ClassId) (subsignature : String) (isAbstract : Bool)
    (body : List BodyStep) (p : Program) :
    ((Draft.define owner subsignature false isAbstract
      (Body.addThis >>= fun _ => Body.ofSteps body)).run p).2 =
      Definition.enter ⟨owner, subsignature, false, isAbstract, body⟩ p := by
  have hthis : ∀ b : OpenMethod, ((Body.addThis >>= fun _ => Body.ofSteps body).run b).2 =
      ((Body.ofSteps body).run ⟨{ b.method with this := some b.vars.size },
        b.vars.push ⟨b.vars.size, "this", b.method.id⟩⟩).2 := fun _ => rfl
  rw [run_define, hthis, Body.run_ofSteps]
  simp [Definition.enter, Definition.decl, Definition.varNames, namedFrom]

/-- A step that defines a method enters it. -/
theorem after_of_definition {s : DraftStep} {d : Definition} (h : s.definition? = some d) (p : Program) :
    s.after p = d.enter p := by
  cases s with
  | staticMethod owner subsignature body =>
    cases h
    exact run_define_static owner subsignature body p
  | method owner subsignature body =>
    cases h
    exact run_define_instance owner subsignature false body p
  | abstractMethod owner subsignature arity =>
    cases h
    have hbody : Body.ofSteps ((List.range arity).map fun i => .param s!"p{i}") =
        (List.range arity).forM fun i => (do let _ ← Body.addParam s!"p{i}" : Body Unit) := by
      rw [Body.ofSteps, List.forM_eq_forM, List.forM_map]
      rfl
    have hrun := run_define_instance owner subsignature true
      ((List.range arity).map fun i => .param s!"p{i}") p
    rw [hbody] at hrun
    exact hrun
  | _ => cases h

/-! ## Tables after a step -/

/-- The class that a step adds. -/
def class? (id : ClassId) : DraftStep → Option ClassDecl
  | newClass name => some (.plain id name)
  | newSubclass name superclass => some { ClassDecl.plain id name with superclass := some superclass }
  | newInterface name => some { ClassDecl.plain id name with isInterface := true, isAbstract := true }
  | _ => none

/-- The name of the class that a step adds. -/
def className? : DraftStep → Option String
  | newClass name | newSubclass name _ | newInterface name => some name
  | _ => none

/-- The field that a step adds. -/
def field? (id : FieldId) : DraftStep → Option FieldDecl
  | field isStatic owner name => some ⟨id, name, owner, isStatic⟩
  | _ => none

/-- The root class that a step sets. -/
def rootClass? : DraftStep → Option ClassId
  | rootClass c => some c
  | _ => none

/-- The entry that a step sets. -/
def entry? : DraftStep → Option MethodId
  | entry m => some m
  | _ => none

/-- The method under which a step lists a subsignature in the table of a class. -/
def declares? (p : Program) (c : ClassId) (subsignature : String) (s : DraftStep) : Option MethodId :=
  s.definition?.bind fun d =>
    if d.owner = c ∧ d.subsignature = subsignature ∧ c < p.classes.size then some p.methods.size else none

/-- Does a step put class `c` right below `sup`? -/
def Below (p : Program) (c sup : ClassId) : DraftStep → Prop
  | newSubclass _ superclass => c = p.classes.size ∧ sup = superclass
  | implement d interface => c = d ∧ sup = interface
  | _ => False

/-- Is the class that a step changes there? -/
def Proper (p : Program) : DraftStep → Prop
  | implement c _ | markAbstract c => c < p.classes.size
  | _ => True

instance (p : Program) (s : DraftStep) : Decidable (s.Proper p) :=
  match s with
  | implement c _ | markAbstract c => inferInstanceAs (Decidable (c < p.classes.size))
  | newClass _ | newSubclass _ _ | newInterface _ | rootClass _ | entry _ | field _ _ _
  | staticMethod _ _ _ | method _ _ _ | abstractMethod _ _ _ => inferInstanceAs (Decidable True)

theorem after_of_class {s : DraftStep} {p : Program} {d : ClassDecl} (h : s.class? p.classes.size = some d) :
    s.after p = { p with classes := p.classes.push d } := by
  have hmodify : ∀ {name : String} {f : ClassDecl → ClassDecl},
      (p.classes.push (ClassDecl.plain p.classes.size name)).modify p.classes.size f =
        p.classes.push (f (.plain p.classes.size name)) := by
    intro name f
    apply Array.ext_getElem?
    intro i
    rw [Array.getElem?_modify, Array.getElem?_push, Array.getElem?_push]
    by_cases hi : i = p.classes.size
    · subst hi
      simp
    · simp [hi, Ne.symm hi]
  cases s with
  | newClass name =>
    cases h
    rfl
  | newSubclass name superclass =>
    cases h
    exact congrArg (fun classes => { p with classes }) hmodify
  | newInterface name =>
    cases h
    exact congrArg (fun classes => { p with classes }) hmodify
  | _ => cases h

/-- What a step makes of the class at a position. -/
def change (p : Program) (c : ClassId) (d : ClassDecl) : DraftStep → ClassDecl
  | implement c' interface => if c' = c then { d with interfaces := d.interfaces ++ [interface] } else d
  | markAbstract c' => if c' = c then { d with isAbstract := true } else d
  | staticMethod owner subsignature _ | method owner subsignature _ | abstractMethod owner subsignature _ =>
    if owner = c then { d with methods := d.methods.insert subsignature p.methods.size } else d
  | _ => d

theorem class?_modifyClass (p : Program) (c j : ClassId) (f : ClassDecl → ClassDecl) :
    (p.modifyClass c f).class? j = (p.class? j).map fun d => if c = j then f d else d := by
  rw [Program.class?, Program.modifyClass, Array.getElem?_modify]
  by_cases h : c = j <;> simp [h, Program.class?]

variable (s : DraftStep) (p : Program)

/-- A class is as a step has made it, or the step has added it. -/
theorem class?_after (c : ClassId) : (s.after p).class? c =
    ((p.class? c).map fun d => s.change p c d).or (if c = p.classes.size then s.class? c else none) := by
  have hnone : ∀ x : Option ClassDecl, x.or (if c = p.classes.size then none else none) = x := by
    intro x
    rw [ite_self, Option.or_none]
  cases s with
  | newClass | newSubclass | newInterface =>
    rw [after_of_class rfl, Program.class?, Program.class?, Array.getElem?_push]
    by_cases hc : c = p.classes.size
    · subst hc
      simp [class?]
    · simp [hc, change]
  | implement | markAbstract | staticMethod | method | abstractMethod =>
    exact (class?_modifyClass _ _ _ _).trans (hnone _).symm
  | rootClass | entry | field =>
    refine Eq.trans ?_ (hnone _).symm
    simp only [change, Option.map_id_fun', id_eq]
    rfl

theorem map_classes_after {α : Type} {f : ClassDecl → α} (h : ∀ c d, f (s.change p c d) = f d) :
    (s.after p).classes.toList.map f =
      p.classes.toList.map f ++ ((s.class? p.classes.size).map f).toList := by
  apply List.ext_getElem?
  intro i
  have hleft : ((s.after p).classes.toList.map f)[i]? = ((s.after p).class? i).map f := by
    rw [List.getElem?_map, Array.getElem?_toList, Program.class?]
  rw [hleft, class?_after, List.getElem?_append, List.length_map, Array.length_toList]
  by_cases hlt : i < p.classes.size
  · rw [if_pos hlt, if_neg (Nat.ne_of_lt hlt)]
    simp [Program.class?, hlt, h]
  · have hnone : p.class? i = none := Array.getElem?_eq_none (Nat.le_of_not_lt hlt)
    rw [if_neg hlt, hnone, Option.map_none, Option.none_or]
    by_cases hi : i = p.classes.size
    · subst hi
      rw [if_pos rfl, Nat.sub_self]
      cases (s.class? p.classes.size) <;> rfl
    · rw [if_neg hi, Option.map_none, List.getElem?_eq_none]
      have hlen : ((s.class? p.classes.size).map f).toList.length ≤ 1 := by
        cases s.class? p.classes.size <;> simp
      omega

theorem classNames_after : (s.after p).classes.toList.map (·.name) =
    p.classes.toList.map (·.name) ++ s.className?.toList := by
  have hname : (s.class? p.classes.size).map (·.name) = s.className? := by
    cases s <;> rfl
  rw [map_classes_after s p, hname]
  intro c d
  cases s <;> simp only [change] <;> split <;> rfl

theorem classIds_after : (s.after p).classes.toList.map (·.id) =
    p.classes.toList.map (·.id) ++ ((s.class? p.classes.size).map (·.id)).toList := by
  apply map_classes_after
  intro c d
  cases s <;> simp only [change] <;> split <;> rfl

theorem mem_supertypes_change (c sup : ClassId) (d : ClassDecl) :
    sup ∈ (s.change p c d).supertypes ↔ sup ∈ d.supertypes ∨ s = implement c sup := by
  cases s with
  | implement c' interface =>
    by_cases hc : c' = c
    · subst hc
      simp [change, ClassDecl.supertypes, or_assoc, eq_comm]
    · simp [change, hc]
  | _ => simp only [change, reduceCtorEq, or_false] <;> split <;> rfl

theorem mem_supertypes_after (hs : s.Proper p) (c sup : ClassId) :
    sup ∈ (s.after p).supertypes c ↔ sup ∈ p.supertypes c ∨ s.Below p c sup := by
  simp only [Program.mem_supertypes_iff, class?_after]
  cases hc : p.class? c with
  | none =>
    have hge : p.classes.size ≤ c := Array.getElem?_eq_none_iff.1 hc
    cases s with
    | implement d interface =>
      have hne : c ≠ d := fun h => Nat.lt_irrefl _ (Nat.lt_of_le_of_lt hge (h ▸ hs))
      simp [class?, Below, hne]
    | newSubclass name superclass =>
      simp [class?, Below, ClassDecl.supertypes, ClassDecl.plain, eq_comm]
    | _ => simp [class?, Below, ClassDecl.supertypes, ClassDecl.plain]
  | some d =>
    have hlt : c < p.classes.size := (Array.getElem?_eq_some_iff.1 hc).1
    simp only [Option.map_some, Option.some_or, Option.some.injEq, exists_eq_left', mem_supertypes_change]
    cases s <;> simp [Below, Nat.ne_of_lt hlt, eq_comm]

theorem get?_change (c : ClassId) (d : ClassDecl) (subsignature : String) :
    (s.change p c d).methods.get? subsignature =
      (s.definition?.bind fun e =>
        if e.owner = c ∧ e.subsignature = subsignature then some p.methods.size else none).or
          (d.methods.get? subsignature) := by
  cases s with
  | implement | markAbstract =>
    simp only [change]
    split <;> rfl
  | staticMethod owner sub | method owner sub | abstractMethod owner sub =>
    by_cases howner : owner = c
    · by_cases hsub : sub = subsignature
      · simp [change, definition?, howner, hsub, NameMap.get?_insert]
      · simp [change, definition?, howner, hsub, NameMap.get?_insert, Ne.symm hsub]
    · simp [change, definition?, howner]
  | _ => rfl

theorem declared?_after (c : ClassId) (subsignature : String) :
    (s.after p).declared? c subsignature =
      (s.declares? p c subsignature).or (p.declared? c subsignature) := by
  simp only [Program.declared?, class?_after, declares?]
  cases hc : p.class? c with
  | none =>
    have hge : ¬c < p.classes.size := Nat.not_lt_of_le (Array.getElem?_eq_none_iff.1 hc)
    simp only [hge, and_false, if_false]
    cases s <;> simp [class?, ClassDecl.plain]
  | some d =>
    have hlt : c < p.classes.size := (Array.getElem?_eq_some_iff.1 hc).1
    simp [get?_change, hlt]

theorem fields_after : (s.after p).fields.toList = p.fields.toList ++ (s.field? p.fields.size).toList := by
  cases s with
  | field isStatic owner name => exact Array.toList_push
  | _ => exact (List.append_nil _).symm

theorem methods_after : (s.after p).methods.toList = p.methods.toList ++
    (s.definition?.map fun d => d.decl p.methods.size p.vars.size).toList := by
  cases h : s.definition? with
  | some d =>
    rw [after_of_definition h]
    exact Array.toList_push
  | none =>
    rw [Option.map_none, Option.toList_none, List.append_nil]
    cases s with
    | staticMethod | method | abstractMethod => cases h
    | _ => rfl

theorem vars_after : (s.after p).vars.toList = p.vars.toList ++
    s.definition?.elim [] fun d => namedFrom p.methods.size p.vars.size d.varNames := by
  cases h : s.definition? with
  | some d =>
    rw [after_of_definition h]
    simp [Definition.enter, Program.enter, Program.modifyClass]
  | none =>
    rw [Option.elim_none, List.append_nil]
    cases s with
    | staticMethod | method | abstractMethod => cases h
    | _ => rfl

theorem rootClass_after : (s.after p).rootClass = s.rootClass?.or p.rootClass := by
  cases s <;> rfl

theorem entry_after : (s.after p).entry = s.entry?.or p.entry := by
  cases s <;> rfl

end DraftStep

/-! ## Tables after all steps -/

namespace Draft

/-- The program that steps write from nothing. -/
def written (steps : List DraftStep) : Program := ((ofSteps steps).run .empty).2

/-- Steps, each with the program in which it is taken, from a program on. -/
def momentsFrom (p : Program) : List DraftStep → List (Program × DraftStep)
  | [] => []
  | s :: steps => (p, s) :: momentsFrom (s.after p) steps

/-- Steps that write a program from nothing, each with what has been written before it. -/
def moments (steps : List DraftStep) : List (Program × DraftStep) := momentsFrom .empty steps

theorem run_ofSteps (steps : List DraftStep) (p : Program) :
    ((ofSteps steps).run p).2 = steps.foldl (fun p s => s.after p) p := by
  induction steps generalizing p with
  | nil => rfl
  | cons s steps ih => exact ih (s.after p)

theorem momentsFrom_concat (p : Program) (steps : List DraftStep) (s : DraftStep) :
    momentsFrom p (steps ++ [s]) = momentsFrom p steps ++ [(steps.foldl (fun p s => s.after p) p, s)] := by
  induction steps generalizing p with
  | nil => rfl
  | cons t steps ih => exact congrArg ((p, t) :: ·) (ih (t.after p))

variable (steps : List DraftStep) (s : DraftStep)

@[simp] theorem written_nil : written [] = .empty := rfl

@[simp] theorem written_concat : written (steps ++ [s]) = s.after (written steps) := by
  rw [written, written, run_ofSteps, run_ofSteps, List.foldl_append]
  rfl

@[simp] theorem moments_nil : moments [] = [] := rfl

@[simp] theorem moments_concat : moments (steps ++ [s]) = moments steps ++ [(written steps, s)] := by
  rw [moments, momentsFrom_concat, written, run_ofSteps, moments]

theorem map_moments : (moments steps).map (·.2) = steps := by
  induction steps using List.reverseRecOn with
  | nil => rfl
  | append_singleton steps s ih => simp [ih]

theorem fields_written : (written steps).fields.toList =
    (moments steps).filterMap fun x => x.2.field? x.1.fields.size := by
  induction steps using List.reverseRecOn with
  | nil => rfl
  | append_singleton steps s ih =>
    rw [written_concat, DraftStep.fields_after, ih, moments_concat, List.filterMap_append]
    cases h : s.field? (written steps).fields.size <;> simp [h]

theorem methods_written : (written steps).methods.toList =
    (moments steps).filterMap fun x =>
      x.2.definition?.map fun d => d.decl x.1.methods.size x.1.vars.size := by
  induction steps using List.reverseRecOn with
  | nil => rfl
  | append_singleton steps s ih =>
    rw [written_concat, DraftStep.methods_after, ih, moments_concat, List.filterMap_append]
    cases h : s.definition? <;> simp [h]

theorem vars_written : (written steps).vars.toList =
    (moments steps).flatMap fun x =>
      x.2.definition?.elim [] fun d => namedFrom x.1.methods.size x.1.vars.size d.varNames := by
  induction steps using List.reverseRecOn with
  | nil => rfl
  | append_singleton steps s ih =>
    rw [written_concat, DraftStep.vars_after, ih, moments_concat, List.flatMap_append, List.flatMap_singleton]

theorem classNames_written : (written steps).classes.toList.map (·.name) =
    steps.filterMap DraftStep.className? := by
  induction steps using List.reverseRecOn with
  | nil => rfl
  | append_singleton steps s ih =>
    rw [written_concat, DraftStep.classNames_after, ih, List.filterMap_append]
    cases h : s.className? <;> simp [h]

theorem rootClass_written : (written steps).rootClass = (steps.filterMap DraftStep.rootClass?).getLast? := by
  induction steps using List.reverseRecOn with
  | nil => rfl
  | append_singleton steps s ih =>
    rw [written_concat, DraftStep.rootClass_after, ih, List.filterMap_append]
    cases h : s.rootClass? <;> simp [h]

theorem entry_written : (written steps).entry = (steps.filterMap DraftStep.entry?).getLast? := by
  induction steps using List.reverseRecOn with
  | nil => rfl
  | append_singleton steps s ih =>
    rw [written_concat, DraftStep.entry_after, ih, List.filterMap_append]
    cases h : s.entry? <;> simp [h]

theorem declared?_written (c : ClassId) (subsignature : String) : (written steps).declared? c subsignature =
    ((moments steps).filterMap fun x => x.2.declares? x.1 c subsignature).getLast? := by
  induction steps using List.reverseRecOn with
  | nil => rfl
  | append_singleton steps s ih =>
    rw [written_concat, DraftStep.declared?_after, ih, moments_concat, List.filterMap_append]
    cases h : s.declares? (written steps) c subsignature <;> simp [h]

theorem mem_supertypes_written (h : ∀ x ∈ moments steps, x.2.Proper x.1) (c sup : ClassId) :
    sup ∈ (written steps).supertypes c ↔ ∃ x ∈ moments steps, x.2.Below x.1 c sup := by
  induction steps using List.reverseRecOn with
  | nil => simp [Program.supertypes, Program.class?, Program.empty]
  | append_singleton steps s ih =>
    simp only [moments_concat, List.mem_append, List.mem_singleton, or_imp, forall_and, forall_eq] at h
    rw [written_concat, DraftStep.mem_supertypes_after _ _ h.2, ih h.1, moments_concat]
    simp [or_and_right, exists_or]

/-! ## Ids are positions -/

section

variable {α : Type} {f : α → Nat} {xs ys : List α}

/-- Where ids are positions, an id tells what has it. -/
theorem getElem?_eq_some_iff_of_ids (h : xs.map f = List.range xs.length) {i : Nat} {a : α} :
    xs[i]? = some a ↔ a ∈ xs ∧ f a = i := by
  have hid : ∀ {i a}, xs[i]? = some a → f a = i := by
    intro i a hi
    have hmap : (xs.map f)[i]? = some (f a) := by rw [List.getElem?_map, hi, Option.map_some]
    rw [h] at hmap
    exact (List.getElem?_eq_some_iff.1 hmap).2.symm.trans (List.getElem_range _)
  constructor
  · intro hi
    exact ⟨List.mem_of_getElem? hi, hid hi⟩
  · rintro ⟨ha, rfl⟩
    obtain ⟨j, hj⟩ := List.getElem?_of_mem ha
    rwa [hid hj]

theorem ids_append (h : xs.map f = List.range xs.length) (hys : ys.map f = List.range' xs.length ys.length) :
    (xs ++ ys).map f = List.range (xs ++ ys).length := by
  rw [List.map_append, h, hys, List.length_append, List.range_eq_range', List.range_eq_range',
    ← List.range'_append_1, Nat.zero_add]

end

theorem getElem?_cons_sub {α : Type} {a : α} {xs : List α} {i j : Nat} (h : i < j) :
    (a :: xs)[j - i]? = xs[j - (i + 1)]? := by
  have hsucc : j - i = j - (i + 1) + 1 := by omega
  rw [hsucc, List.getElem?_cons_succ]

theorem mem_namedFrom {m : MethodId} {first : VarId} {names : List String} {e : VarDecl} :
    e ∈ namedFrom m first names ↔ e.method = m ∧ first ≤ e.id ∧ names[e.id - first]? = some e.name := by
  induction names generalizing first with
  | nil => simp [namedFrom]
  | cons name names ih =>
    rw [namedFrom, List.mem_cons, ih]
    constructor
    · rintro (rfl | ⟨hm, hlt, hname⟩)
      · simp
      · exact ⟨hm, Nat.le_of_lt hlt, (getElem?_cons_sub hlt).trans hname⟩
    · rintro ⟨rfl, hle, hname⟩
      rcases Nat.eq_or_lt_of_le hle with rfl | hlt
      · rw [Nat.sub_self, List.getElem?_cons_zero, Option.some.injEq] at hname
        exact Or.inl (by rw [hname])
      · exact Or.inr ⟨rfl, hlt, (getElem?_cons_sub hlt).symm.trans hname⟩

theorem ids_namedFrom (m : MethodId) (first : VarId) (names : List String) :
    (namedFrom m first names).map (·.id) = List.range' first names.length := by
  induction names generalizing first with
  | nil => rfl
  | cons name names ih => simp [namedFrom, ih, List.range'_succ]

theorem length_namedFrom (m : MethodId) (first : VarId) (names : List String) :
    (namedFrom m first names).length = names.length := by
  simpa using congrArg List.length (ids_namedFrom m first names)

theorem classIds_written : (written steps).classes.toList.map (·.id) =
    List.range (written steps).classes.toList.length := by
  induction steps using List.reverseRecOn with
  | nil => rfl
  | append_singleton steps s ih =>
    have hlength : (s.after (written steps)).classes.toList.length =
        (written steps).classes.toList.length + (s.class? (written steps).classes.size).toList.length := by
      have h := congrArg List.length (DraftStep.classNames_after s (written steps))
      simp only [List.length_map, List.length_append] at h
      rw [h]
      cases s <;> rfl
    rw [written_concat, DraftStep.classIds_after, ih, hlength, List.range_eq_range', List.range_eq_range',
      ← List.range'_append_1, Nat.zero_add]
    cases s <;> rfl

theorem fieldIds_written : (written steps).fields.toList.map (·.id) =
    List.range (written steps).fields.toList.length := by
  induction steps using List.reverseRecOn with
  | nil => rfl
  | append_singleton steps s ih =>
    rw [written_concat, DraftStep.fields_after]
    refine ids_append ih ?_
    cases s <;> rfl

theorem methodIds_written : (written steps).methods.toList.map (·.id) =
    List.range (written steps).methods.toList.length := by
  induction steps using List.reverseRecOn with
  | nil => rfl
  | append_singleton steps s ih =>
    rw [written_concat, DraftStep.methods_after]
    refine ids_append ih ?_
    cases s.definition? <;> rfl

theorem varIds_written : (written steps).vars.toList.map (·.id) =
    List.range (written steps).vars.toList.length := by
  induction steps using List.reverseRecOn with
  | nil => rfl
  | append_singleton steps s ih =>
    rw [written_concat, DraftStep.vars_after]
    refine ids_append ih ?_
    cases s.definition? with
    | none => rfl
    | some d =>
      rw [Option.elim_some, ids_namedFrom, length_namedFrom]
      rfl

end Draft

end PointsTo
