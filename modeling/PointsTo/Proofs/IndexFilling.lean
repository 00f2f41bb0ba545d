import PointsTo.Proofs.StrictTables
import PointsTo.Proofs.Subtypes

/-!
# The index, filled entry by entry

`makeIndex` says what the tables of an index hold. A machine fills them as it walks over the classes and the
statements: it appends each class to the lists of its supertypes and each statement to a list of the variable
that it uses. Of any program whose supertypes and variables are there it makes the same index, and it finds
every list to which it appends (`fillIndex_eq`). After each step the tables hold what belongs to the classes
and statements so far (`Program.indexOf`).
-/

namespace PointsTo

/-! ## The machine -/

/-- The lists of the uses of a variable. -/
inductive Slot where
  | storeFields
  | loadFields
  | storeArrays
  | loadArrays
  | calls
deriving DecidableEq

/-- The variable that a statement uses as base or receiver, and the list for that. -/
def Stmt.use? : Stmt → Option (VarId × Slot)
  | .storeField base _ _ => some (base, .storeFields)
  | .loadField _ base _ => some (base, .loadFields)
  | .storeArray base _ => some (base, .storeArrays)
  | .loadArray _ base => some (base, .loadArrays)
  | .call c => if c.isStatic then none else c.receiver.map (·, .calls)
  | .new .. | .copy .. | .loadStatic .. | .storeStatic .. => none

/-- The uses with one more in a list. -/
def VarUses.push (u : VarUses) (site : Site) : Slot → VarUses
  | .storeFields => { u with storeFields := u.storeFields ++ [site] }
  | .loadFields => { u with loadFields := u.loadFields ++ [site] }
  | .storeArrays => { u with storeArrays := u.storeArrays ++ [site] }
  | .loadArrays => { u with loadArrays := u.loadArrays ++ [site] }
  | .calls => { u with calls := u.calls ++ [site] }

namespace Index

/-- Append a class to the lists of some supertypes. -/
def enterBelow (d : ClassId) (table : Array (List ClassId)) (sups : List ClassId) :
    Except Halt (Array (List ClassId)) :=
  sups.foldlM (fun table sup => change table sup (· ++ [d])) table

/-- Enter a class by its name and below its supertypes. -/
def enterClass (index : Index) (c : ClassDecl) : Except Halt Index := do
  let subclasses ← enterBelow c.id index.subclasses c.superclass.toList
  let index := { index with classIds := index.classIds.insert c.name c.id, subclasses }
  if c.isInterface then
    pure { index with subinterfaces := ← enterBelow c.id index.subinterfaces c.interfaces }
  else
    pure { index with implementors := ← enterBelow c.id index.implementors c.interfaces }

/-- Enter a statement at the variable that it uses. -/
def enterStmt (index : Index) (x : Site × Stmt) : Except Halt Index :=
  match x.2.use? with
  | none => pure index
  | some (v, slot) => do
    pure { index with varUses := ← change index.varUses v (·.push x.1 slot) }

end Index

namespace Program

/-- The index, made by entering all classes and then all statements. -/
def fillIndex (p : Program) : Except Halt Index := do
  let index ← p.classes.toList.foldlM Index.enterClass {
    varUses := Array.replicate p.vars.size .none
    subclasses := Array.replicate p.classes.size []
    implementors := Array.replicate p.classes.size []
    subinterfaces := Array.replicate p.classes.size []
    classIds := ∅
    stmtCount := p.stmtCount }
  p.methods.toList.foldlM (fun index m => m.sites.foldlM Index.enterStmt index) index

end Program

/-! ## Lists below a key -/

section

variable {α : Type} {n k : Nat} {pairs : List (Nat × α)}

/-- For each key below `n` what the pairs have under it, in their order. -/
def listsOf (n : Nat) (pairs : List (Nat × α)) : Array (List α) :=
  tabulate n fun k => (pairs.filter (·.1 = k)).map (·.2)

theorem change_listsOf (hk : k < n) (x : α) :
    change (listsOf n pairs) k (· ++ [x]) = .ok (listsOf n (pairs ++ [(k, x)])) := by
  apply change_tabulate hk
  · simp
  · intro j hj
    simp [Ne.symm hj]

end

/-! ## The index so far -/

/-- The entry of a class below its superclass. -/
def ClassDecl.belowClass (c : ClassDecl) : List (ClassId × ClassId) := c.superclass.toList.map (·, c.id)

/-- The entries of a class, or of an interface, below the interfaces that it lists. -/
def ClassDecl.belowInterfaces (interfaces : Bool) (c : ClassDecl) : List (ClassId × ClassId) :=
  if c.isInterface = interfaces then c.interfaces.map (·, c.id) else []

/-- The statements that use a variable in some way. -/
def sitesIn (stmts : List (Site × Stmt)) (v : VarId) (slot : Slot) : List Site :=
  (stmts.filter fun x => x.2.use? = some (v, slot)).map (·.1)

/-- The uses of a variable in some statements. -/
def usesIn (stmts : List (Site × Stmt)) (v : VarId) : VarUses where
  storeFields := sitesIn stmts v .storeFields
  loadFields := sitesIn stmts v .loadFields
  storeArrays := sitesIn stmts v .storeArrays
  loadArrays := sitesIn stmts v .loadArrays
  calls := sitesIn stmts v .calls

/-- The index of the program when it holds some classes and some statements only. -/
def Program.indexOf (p : Program) (classes : List ClassDecl) (stmts : List (Site × Stmt)) : Index where
  varUses := tabulate p.vars.size (usesIn stmts)
  subclasses := listsOf p.classes.size (classes.flatMap (·.belowClass))
  implementors := listsOf p.classes.size (classes.flatMap (·.belowInterfaces false))
  subinterfaces := listsOf p.classes.size (classes.flatMap (·.belowInterfaces true))
  classIds := NameMap.ofList (classes.map fun c => (c.name, c.id))
  stmtCount := p.stmtCount

theorem sitesIn_append_singleton (stmts : List (Site × Stmt)) (x : Site × Stmt) (v : VarId) (slot : Slot) :
    sitesIn (stmts ++ [x]) v slot =
      sitesIn stmts v slot ++ if x.2.use? = some (v, slot) then [x.1] else [] := by
  rw [sitesIn, List.filter_append, List.map_append, ← sitesIn, List.filter_singleton]
  by_cases h : x.2.use? = some (v, slot)
  · simp [h]
  · simp [h]

theorem Stmt.mem_vars_of_use? {stmt : Stmt} {v : VarId} {slot : Slot} (h : stmt.use? = some (v, slot)) :
    v ∈ stmt.vars := by
  cases stmt <;> simp_all [Stmt.use?, Stmt.vars, Call.vars]

theorem usesIn_append_of_use {stmts : List (Site × Stmt)} {x : Site × Stmt} {v : VarId} {slot : Slot}
    (h : x.2.use? = some (v, slot)) : usesIn (stmts ++ [x]) v = (usesIn stmts v).push x.1 slot := by
  cases slot <;> simp [usesIn, VarUses.push, sitesIn_append_singleton, h]

theorem usesIn_append_of_ne {stmts : List (Site × Stmt)} {x : Site × Stmt} {v : VarId}
    (h : ∀ slot, x.2.use? ≠ some (v, slot)) : usesIn (stmts ++ [x]) v = usesIn stmts v := by
  simp [usesIn, sitesIn_append_singleton, h]

/-! ## Steps of the machine -/

namespace Index

theorem enterBelow_listsOf {n : Nat} {d : ClassId} {sups : List ClassId} (h : ∀ sup ∈ sups, sup < n)
    (pairs : List (ClassId × ClassId)) :
    enterBelow d (listsOf n pairs) sups = .ok (listsOf n (pairs ++ sups.map (·, d))) := by
  have hstep : ∀ sup ∈ sups, ∀ done : List ClassId,
      change (listsOf n (pairs ++ done.map (·, d))) sup (· ++ [d]) =
        .ok (listsOf n (pairs ++ (done ++ [sup]).map (·, d))) := by
    intro sup hsup done
    rw [change_listsOf (h sup hsup), List.append_assoc, List.map_append]
    rfl
  have hfold := foldlM_eq_ok (fun table sup => change table sup (· ++ [d]))
    (fun done => listsOf n (pairs ++ done.map (·, d))) hstep []
  rwa [List.map_nil, List.append_nil, List.nil_append] at hfold

variable {p : Program} {classes : List ClassDecl} {stmts : List (Site × Stmt)} {c : ClassDecl}
  {x : Site × Stmt}

theorem enterClass_indexOf (h : ∀ sup ∈ c.supertypes, sup < p.classes.size) :
    enterClass (p.indexOf classes stmts) c = .ok (p.indexOf (classes ++ [c]) stmts) := by
  have hsuper : ∀ sup ∈ c.superclass.toList, sup < p.classes.size := fun sup hsup =>
    h sup (List.mem_append_left _ hsup)
  have hinterfaces : ∀ sup ∈ c.interfaces, sup < p.classes.size := fun sup hsup =>
    h sup (List.mem_append_right _ hsup)
  have hnames : NameMap.ofList ((classes ++ [c]).map fun c => (c.name, c.id)) =
      (NameMap.ofList (classes.map fun c => (c.name, c.id))).insert c.name c.id := by
    rw [NameMap.ofList, List.map_append, List.foldl_append]
    rfl
  simp only [enterClass, Program.indexOf, List.flatMap_append, List.flatMap_singleton, hnames,
    ClassDecl.belowInterfaces, enterBelow_listsOf hsuper, enterBelow_listsOf hinterfaces]
  -- of the two tables of interfaces one gets nothing
  cases c.isInterface with
  | false =>
    simp only [Bool.false_eq_true, if_false, if_true, List.append_nil]
    rfl
  | true =>
    simp only [Bool.true_eq_false, if_false, if_true, List.append_nil]
    rfl

theorem enterStmt_indexOf (h : ∀ v slot, x.2.use? = some (v, slot) → v < p.vars.size) :
    enterStmt (p.indexOf classes stmts) x = .ok (p.indexOf classes (stmts ++ [x])) := by
  rw [enterStmt]
  cases huse : x.2.use? with
  | none =>
    have hsame : usesIn (stmts ++ [x]) = usesIn stmts := by
      funext v
      apply usesIn_append_of_ne
      simp [huse]
    simp only [Program.indexOf, hsame]
    rfl
  | some use =>
    obtain ⟨v, slot⟩ := use
    have hchange : change (tabulate p.vars.size (usesIn stmts)) v (·.push x.1 slot) =
        .ok (tabulate p.vars.size (usesIn (stmts ++ [x]))) := by
      apply change_tabulate (h v slot huse)
      · exact usesIn_append_of_use huse
      · intro w hw
        apply usesIn_append_of_ne
        intro slot' huse'
        rw [huse, Option.some.injEq, Prod.mk.injEq] at huse'
        exact hw huse'.1.symm
    simp only [Program.indexOf, hchange]
    rfl

end Index

/-! ## The index in the end -/

namespace Program

variable {p : Program}

theorem subclassesOf_eq (p : Program) (c : ClassId) : p.subclassesOf c =
    ((p.classes.toList.flatMap (·.belowClass)).filter (·.1 = c)).map (·.2) := by
  rw [subclassesOf]
  induction p.classes.toList with
  | nil => rfl
  | cons d ds ih =>
    rw [List.flatMap_cons, List.filter_append, List.map_append, ← ih, ClassDecl.belowClass]
    cases hsup : d.superclass with
    | none => simp [hsup]
    | some sup => by_cases hc : sup = c <;> simp [hsup, hc]

theorem listingInterface_eq (p : Program) (interfaces : Bool) (c : ClassId) :
    p.listingInterface interfaces c =
      ((p.classes.toList.flatMap (·.belowInterfaces interfaces)).filter (·.1 = c)).map (·.2) := by
  rw [listingInterface]
  induction p.classes.toList with
  | nil => rfl
  | cons d ds ih =>
    rw [List.flatMap_cons, List.filter_append, List.map_append, ← ih, ClassDecl.belowInterfaces]
    by_cases hkind : d.isInterface = interfaces
    · simp [hkind, List.filter_map, Function.comp_def]
    · simp [hkind]

theorem sitesWhere_eq_sitesIn {test : Stmt → Bool} {v : VarId} {slot : Slot}
    (h : ∀ stmt, test stmt = decide (stmt.use? = some (v, slot))) :
    p.sitesWhere test = sitesIn (p.methods.toList.flatMap (·.sites)) v slot := by
  rw [sitesWhere_eq, sitesIn]
  simp only [h]

theorem usesOf_eq (p : Program) (v : VarId) :
    p.usesOf v = usesIn (p.methods.toList.flatMap (·.sites)) v := by
  rw [usesOf, usesIn, VarUses.mk.injEq]
  refine ⟨?_, ?_, ?_, ?_, ?_⟩
  all_goals
    apply sitesWhere_eq_sitesIn
    intro stmt
    cases stmt <;> simp [Stmt.use?]

/-- The index lists all classes and all statements. -/
theorem makeIndex_eq (p : Program) :
    p.makeIndex = p.indexOf p.classes.toList (p.methods.toList.flatMap (·.sites)) := by
  have huses : usesIn (p.methods.toList.flatMap (·.sites)) = p.usesOf :=
    funext fun v => (usesOf_eq p v).symm
  simp only [indexOf, huses, listsOf, ← subclassesOf_eq, ← listingInterface_eq]
  rfl

/-- The machine makes the index of every program whose supertypes and variables are there. -/
theorem fillIndex_eq (hclasses : ∀ c ∈ p.classes.toList, ∀ sup ∈ c.supertypes, sup < p.classes.size)
    (hstmts : ∀ m ∈ p.methods.toList, ∀ x ∈ m.sites, ∀ v ∈ x.2.vars, v < p.vars.size) :
    p.fillIndex = .ok p.makeIndex := by
  have hstart : Index.mk (Array.replicate p.vars.size .none) (Array.replicate p.classes.size [])
      (Array.replicate p.classes.size []) (Array.replicate p.classes.size []) ∅ p.stmtCount =
        p.indexOf [] [] := by
    have hlists : Array.replicate p.classes.size [] = listsOf p.classes.size ([] : List (Nat × ClassId)) :=
      replicate_eq_tabulate fun _ => rfl
    have huses : Array.replicate p.vars.size VarUses.none = tabulate p.vars.size (usesIn []) :=
      replicate_eq_tabulate fun _ => rfl
    rw [hlists, huses]
    rfl
  have hentered := foldlM_eq_ok Index.enterClass (fun classes => p.indexOf classes [])
    (fun c hc _ => Index.enterClass_indexOf (hclasses c hc)) []
  have hmethod : ∀ m ∈ p.methods.toList, ∀ done : List MethodDecl,
      m.sites.foldlM Index.enterStmt (p.indexOf p.classes.toList (done.flatMap (·.sites))) =
        .ok (p.indexOf p.classes.toList ((done ++ [m]).flatMap (·.sites))) := by
    intro m hm done
    rw [List.flatMap_append, List.flatMap_singleton]
    apply foldlM_eq_ok Index.enterStmt
    intro x hx _
    apply Index.enterStmt_indexOf
    intro v slot huse
    exact hstmts m hm x hx v (Stmt.mem_vars_of_use? huse)
  have hfilled := foldlM_eq_ok (fun index (m : MethodDecl) => m.sites.foldlM Index.enterStmt index)
    (fun methods => p.indexOf p.classes.toList (methods.flatMap (·.sites))) hmethod []
  rw [fillIndex, hstart, hentered, makeIndex_eq]
  exact hfilled

end Program

end PointsTo
