import Mathlib.Data.List.Nodup
import PointsTo.Proofs.CycleSearch
import PointsTo.Proofs.DraftSteps
import PointsTo.Proofs.Linking

/-!
# Programs fail for the faults of their steps

The tables that steps write are in order, whatever the steps are (`Draft.InOrder`): ids are positions, a
variable belongs to the method whose body declares it, and a class lists what has been defined last on it.
So most of what `Program.validate` checks cannot fail. What is left are faults of the steps, and each check
finds one kind of them: the steps are without fault (`Draft.Faultless`), exactly if the program is built
(`Draft.build_exact`).

The checks are taken one table at a time, each as a statement about the moments of the steps.
-/

namespace PointsTo

namespace DraftStep

/-- The statements that a step writes. -/
def stmts (s : DraftStep) : List Stmt := s.definition?.elim [] fun d => d.body.filterMap BodyStep.stmt?

/-- The class of which a step makes another one a subclass, or that declares a field. -/
def otherClass? : DraftStep → Option ClassId
  | newSubclass _ superclass => some superclass
  | implement _ interface => some interface
  | field _ owner _ => some owner
  | _ => none

/-- The classes that a step mentions, other than the one that it changes. -/
def classes (s : DraftStep) : List ClassId := s.otherClass?.toList ++ s.stmts.flatMap Stmt.classes

/-- The fields that a step mentions. -/
def fields (s : DraftStep) : List FieldId := s.stmts.flatMap Stmt.fields

/-- The variables that a step mentions: what it lets a method return, and those of its statements. -/
def vars (s : DraftStep) : List VarId :=
  s.definition?.elim [] (fun d => d.body.filterMap BodyStep.ret?) ++ s.stmts.flatMap Stmt.vars

/-- The class on which a step defines a method, and the subsignature. -/
def declaration? (s : DraftStep) : Option (ClassId × String) :=
  s.definition?.map fun d => (d.owner, d.subsignature)

theorem mem_classes_iff {s : DraftStep} (p : Program) {c : ClassId} : c ∈ s.classes ↔
    ((∃ d, s.Below p d c) ∨ ∃ e, s.field? p.fields.size = some e ∧ e.owner = c) ∨
      ∃ t ∈ s.stmts, c ∈ t.classes := by
  rw [classes, List.mem_append, List.mem_flatMap, Option.mem_toList]
  refine or_congr_left ?_
  cases s <;> simp [otherClass?, Below, field?, eq_comm]

/-- The step lists a method of a class under a subsignature. -/
theorem declares?_eq_some_iff {p : Program} {s : DraftStep} {c : ClassId} {subsignature : String}
    {m : MethodId} : s.declares? p c subsignature = some m ↔ ∃ d, s.definition? = some d ∧ d.owner = c ∧
      d.subsignature = subsignature ∧ c < p.classes.size ∧ p.methods.size = m := by
  simp only [declares?, Option.bind_eq_some_iff, Option.ite_none_right_eq_some, Option.some.injEq, and_assoc]

end DraftStep

namespace Draft

variable {steps : List DraftStep} {x y : Program × DraftStep} {d d' : Definition}

/-! ## Methods and variables by their moments -/

theorem class_id_written {c : ClassId} {e : ClassDecl} (h : (written steps).class? c = some e) :
    e.id = c := by
  rw [Program.class?, ← Array.getElem?_toList, getElem?_eq_some_iff_of_ids (classIds_written steps)] at h
  exact h.2

theorem field_id_written {f : FieldId} {e : FieldDecl} (h : (written steps).field? f = some e) :
    e.id = f := by
  rw [Program.field?, ← Array.getElem?_toList, getElem?_eq_some_iff_of_ids (fieldIds_written steps)] at h
  exact h.2

theorem method_id_written {m : MethodId} {e : MethodDecl} (h : (written steps).method? m = some e) :
    e.id = m := by
  rw [Program.method?, ← Array.getElem?_toList, getElem?_eq_some_iff_of_ids (methodIds_written steps)] at h
  exact h.2

theorem var_id_written {v : VarId} {e : VarDecl} (h : (written steps).var? v = some e) : e.id = v := by
  rw [Program.var?, ← Array.getElem?_toList, getElem?_eq_some_iff_of_ids (varIds_written steps)] at h
  exact h.2

theorem field?_written_iff {f : FieldId} {e : FieldDecl} : (written steps).field? f = some e ↔
    ∃ x ∈ moments steps, x.1.fields.size = f ∧ x.2.field? f = some e := by
  rw [Program.field?, ← Array.getElem?_toList, getElem?_eq_some_iff_of_ids (fieldIds_written steps),
    fields_written, List.mem_filterMap]
  have hid : ∀ {s : DraftStep} {id}, s.field? id = some e → e.id = id := by
    intro s id h
    cases s with
    | field => cases h; rfl
    | _ => cases h
  constructor
  · rintro ⟨⟨x, hx, he⟩, rfl⟩
    exact ⟨x, hx, (hid he).symm, hid he ▸ he⟩
  · rintro ⟨x, hx, rfl, he⟩
    exact ⟨⟨x, hx, he⟩, hid he⟩

theorem method?_written_iff {m : MethodId} {e : MethodDecl} : (written steps).method? m = some e ↔
    ∃ x ∈ moments steps, ∃ d, x.2.definition? = some d ∧ x.1.methods.size = m ∧
      d.decl m x.1.vars.size = e := by
  rw [Program.method?, ← Array.getElem?_toList, getElem?_eq_some_iff_of_ids (methodIds_written steps),
    methods_written]
  simp only [List.mem_filterMap, Option.map_eq_some_iff]
  constructor
  · rintro ⟨⟨x, hx, d, hd, rfl⟩, rfl⟩
    exact ⟨x, hx, d, hd, rfl, rfl⟩
  · rintro ⟨x, hx, d, hd, rfl, rfl⟩
    exact ⟨⟨x, hx, d, hd, rfl⟩, rfl⟩

theorem var?_written_iff {v : VarId} {e : VarDecl} : (written steps).var? v = some e ↔
    ∃ x ∈ moments steps, ∃ d, x.2.definition? = some d ∧ e.id = v ∧ e.method = x.1.methods.size ∧
      x.1.vars.size ≤ v ∧ d.varNames[v - x.1.vars.size]? = some e.name := by
  rw [Program.var?, ← Array.getElem?_toList, getElem?_eq_some_iff_of_ids (varIds_written steps),
    vars_written, List.mem_flatMap]
  constructor
  · rintro ⟨⟨x, hx, he⟩, rfl⟩
    cases hd : x.2.definition? with
    | none =>
      rw [hd] at he
      cases he
    | some d =>
      rw [hd] at he
      exact ⟨x, hx, d, hd, rfl, mem_namedFrom.1 he⟩
  · rintro ⟨x, hx, d, hd, rfl, he⟩
    refine ⟨⟨x, hx, ?_⟩, rfl⟩
    rw [hd]
    exact mem_namedFrom.2 he

/-- A method defined at a moment is there in the end. -/
theorem method_lt_written (hx : x ∈ moments steps) (hd : x.2.definition? = some d) :
    x.1.methods.size < (written steps).methods.size :=
  (Array.getElem?_eq_some_iff.1 (method?_written_iff.2 ⟨x, hx, d, hd, rfl, rfl⟩)).1

/-- A method defined later is at a later position. -/
theorem pairwise_moments (steps : List DraftStep) : (moments steps).Pairwise fun x y =>
    ∀ d, x.2.definition? = some d → x.1.methods.size < y.1.methods.size := by
  induction steps using List.reverseRecOn with
  | nil => exact .nil
  | append_singleton steps s ih =>
    rw [moments_concat, List.pairwise_append]
    refine ⟨ih, List.pairwise_singleton _ _, ?_⟩
    intro x hx y hy d hd
    rw [List.mem_singleton.1 hy]
    exact method_lt_written hx hd

/-- Where a key occurs once, it tells what has it. -/
theorem eq_of_nodup_filterMap {α β : Type} {f : α → Option β} {xs : List α}
    (h : (xs.filterMap f).Nodup) {a a' : α} {b : β} (ha : a ∈ xs) (ha' : a' ∈ xs) (hb : f a = some b)
    (hb' : f a' = some b) : a = a' := by
  rw [List.nodup_iff_pairwise_ne, List.pairwise_filterMap] at h
  have : Std.Symm fun a a' => ∀ b, f a = some b → f a' = some b → a = a' :=
    ⟨fun _ _ heq b hb hb' => (heq b hb' hb).symm⟩
  have hall : xs.Pairwise fun a a' => ∀ b, f a = some b → f a' = some b → a = a' :=
    h.imp fun hne b hb hb' => absurd rfl (hne b hb b hb')
  exact hall.forall_of_forall (fun _ _ _ _ _ => rfl) ha ha' b hb hb'

/-- The moment at which a method is defined is known by its position. -/
theorem moment_eq (hx : x ∈ moments steps) (hd : x.2.definition? = some d) (hy : y ∈ moments steps)
    (hd' : y.2.definition? = some d') (h : x.1.methods.size = y.1.methods.size) : x = y := by
  have hnodup : ((moments steps).filterMap fun x => x.2.definition?.map fun _ => x.1.methods.size).Nodup := by
    rw [List.nodup_iff_pairwise_ne, List.pairwise_filterMap]
    refine (pairwise_moments steps).imp ?_
    intro x y hlt m hm m' hm'
    obtain ⟨d, hd, rfl⟩ := Option.map_eq_some_iff.1 hm
    obtain ⟨-, -, rfl⟩ := Option.map_eq_some_iff.1 hm'
    exact Nat.ne_of_lt (hlt d hd)
  have hsize : ∀ {z : Program × DraftStep} {e}, z.2.definition? = some e →
      (z.2.definition?.map fun _ => z.1.methods.size) = some z.1.methods.size := by
    intro z e he
    rw [he, Option.map_some]
  exact eq_of_nodup_filterMap hnodup hx hy (h ▸ hsize hd) (hsize hd')

/-! ## Faults -/

/-- The steps use what is there, and say nothing twice. -/
structure Faultless (steps : List DraftStep) : Prop where
  classNames : (steps.filterMap DraftStep.className?).Nodup
  /-- The classes that are mentioned are there in the end. -/
  classes : ∀ s ∈ steps, ∀ c ∈ s.classes, c < (written steps).classes.size
  fields : ∀ s ∈ steps, ∀ f ∈ s.fields, f < (written steps).fields.size
  vars : ∀ s ∈ steps, ∀ v ∈ s.vars, v < (written steps).vars.size
  /-- The root class is there in the end. Only the last one that is set is used. -/
  rootClass : ∀ c ∈ (steps.filterMap DraftStep.rootClass?).getLast?, c < (written steps).classes.size
  entry : ∀ m ∈ (steps.filterMap DraftStep.entry?).getLast?, m < (written steps).methods.size
  /-- A method is defined on a class that is there already. -/
  owners : ∀ x ∈ moments steps, ∀ d, x.2.definition? = some d → d.owner < x.1.classes.size
  subsignatures : (steps.filterMap DraftStep.declaration?).Nodup
  /-- No steps put a class above itself. -/
  acyclic : ∀ c, ¬ Relation.TransGen (fun c sup => ∃ x ∈ moments steps, x.2.Below x.1 c sup) c c
  varNames : ∀ s ∈ steps, ∀ d, s.definition? = some d → d.varNames.Nodup
  /-- A method uses variables of its own. -/
  ownVars : ∀ x ∈ moments steps, ∀ v ∈ x.2.vars, ∀ e, (written steps).var? v = some e →
    e.method = x.1.methods.size
  receivers : ∀ s ∈ steps, ∀ c, .call c ∈ s.stmts → c.isStatic = false → c.receiver.isSome

/-! ## What is checked -/

/-- What holds of all steps is said of all moments. -/
theorem forall_steps_iff {P : DraftStep → Prop} : (∀ s ∈ steps, P s) ↔ ∀ x ∈ moments steps, P x.2 := by
  conv_lhs => rw [← map_moments steps]
  exact List.forall_mem_map

/-- A class lists its own methods only. -/
theorem checkListed_written {c : ClassId} {e : ClassDecl} {subsignature : String} {m : MethodId}
    (hc : (written steps).class? c = some e) (hm : (subsignature, m) ∈ e.methods.entries) :
    (written steps).checkListed e subsignature m = .ok () := by
  have hdeclared : (written steps).declared? c subsignature = some m := by
    rw [Program.declared?, hc]
    exact NameMap.get?_eq_some_iff.2 hm
  rw [declared?_written] at hdeclared
  obtain ⟨x, hx, hdeclares⟩ := List.mem_filterMap.1 (List.mem_of_getLast? hdeclared)
  obtain ⟨d, hd, hif⟩ := Option.bind_eq_some_iff.1 hdeclares
  obtain ⟨⟨howner, hsub, -⟩, hsize⟩ := Option.ite_none_right_eq_some.1 hif
  have hmethod := method?_written_iff.2 ⟨x, hx, d, hd, Option.some.inj hsize, rfl⟩
  rw [Program.checkListed, hmethod, class_id_written hc]
  simp [require_eq_ok_iff, Definition.decl, howner, hsub]

theorem checkClass_written :
    (∀ y ∈ (written steps).classes.toList.zipIdx, (written steps).checkClass y.1 y.2 = .ok ()) ↔
    (steps.filterMap DraftStep.className?).Nodup ∧
      ∀ c, ∀ sup ∈ (written steps).supertypes c, sup < (written steps).classes.size := by
  rw [← classNames_written, nodup_map_iff_take]
  have hclass : ∀ {y}, y ∈ (written steps).classes.toList.zipIdx ↔
      (written steps).class? y.2 = some y.1 := by
    intro y
    rw [List.mem_zipIdx_iff_getElem?, Array.getElem?_toList, Program.class?]
  simp only [Program.checkClass, andThen_eq_ok_iff, forM_eq_ok_iff, require_eq_ok_iff, decide_eq_true_eq,
    List.all_eq_true, Program.mem_supertypes_iff]
  constructor
  · intro h
    refine ⟨fun x hx => (h x hx).2.1, ?_⟩
    rintro c sup ⟨e, he, hsup⟩
    exact (h (e, c) (hclass.2 he)).2.2.1 sup hsup
  · rintro ⟨hnames, hsups⟩ x hx
    have he := hclass.1 hx
    refine ⟨class_id_written he, hnames x hx, fun sup hsup => hsups x.2 sup ⟨x.1, he, hsup⟩, ?_⟩
    intro entry hentry
    exact checkListed_written he hentry

theorem checkField_written :
    (∀ y ∈ (written steps).fields.toList.zipIdx, (written steps).checkField y.1 y.2 = .ok ()) ↔
    ∀ x ∈ moments steps, ∀ e, x.2.field? x.1.fields.size = some e →
      e.owner < (written steps).classes.size := by
  have hfield : ∀ {y}, y ∈ (written steps).fields.toList.zipIdx ↔
      (written steps).field? y.2 = some y.1 := by
    intro y
    rw [List.mem_zipIdx_iff_getElem?, Array.getElem?_toList, Program.field?]
  simp only [Program.checkField, andThen_eq_ok_iff, require_eq_ok_iff, decide_eq_true_eq]
  constructor
  · intro h x hx e he
    exact (h (e, x.1.fields.size) (hfield.2 (field?_written_iff.2 ⟨x, hx, rfl, he⟩))).2
  · intro h y hy
    obtain ⟨x, hx, hsize, he⟩ := field?_written_iff.1 (hfield.1 hy)
    exact ⟨field_id_written (hfield.1 hy), h x hx y.1 (hsize ▸ he)⟩

theorem map_namedFrom (m : MethodId) (first : VarId) (names : List String) :
    (namedFrom m first names).map (fun e => (e.method, e.name)) = names.map (m, ·) := by
  induction names generalizing first with
  | nil => rfl
  | cons name names ih => rw [namedFrom, List.map_cons, List.map_cons, ih]

theorem nodup_vars_written : ((written steps).vars.toList.map fun e => (e.method, e.name)).Nodup ↔
    ∀ s ∈ steps, ∀ d, s.definition? = some d → d.varNames.Nodup := by
  have hkeys : ∀ x : Program × DraftStep, (x.2.definition?.elim [] fun d =>
      namedFrom x.1.methods.size x.1.vars.size d.varNames).map (fun e => (e.method, e.name)) =
        x.2.definition?.elim [] fun d => d.varNames.map (x.1.methods.size, ·) := by
    intro x
    cases x.2.definition? with
    | none => rfl
    | some d => exact map_namedFrom _ _ _
  have hmethod : ∀ {x : Program × DraftStep} {a}, (a ∈ x.2.definition?.elim [] fun d =>
      d.varNames.map (x.1.methods.size, ·)) → ∃ d, x.2.definition? = some d ∧ x.1.methods.size = a.1 := by
    intro x a ha
    cases hd : x.2.definition? with
    | none =>
      rw [hd] at ha
      cases ha
    | some d =>
      rw [hd] at ha
      obtain ⟨_, -, rfl⟩ := List.mem_map.1 ha
      exact ⟨d, rfl, rfl⟩
  rw [vars_written, List.map_flatMap, List.nodup_flatMap, forall_steps_iff]
  simp only [hkeys]
  constructor
  · rintro ⟨h, -⟩ x hx d hd
    have hnodup := h x hx
    rw [hd] at hnodup
    exact hnodup.of_map
  · intro h
    constructor
    · intro x hx
      cases hd : x.2.definition? with
      | none => exact .nil
      | some d =>
        have hinj : Function.Injective fun name : String => (x.1.methods.size, name) :=
          fun _ _ heq => (Prod.mk.inj heq).2
        exact (h x hx d hd).map hinj
    · refine (pairwise_moments steps).imp ?_
      intro x y hlt
      refine List.disjoint_left.2 fun a ha hb => ?_
      obtain ⟨d, hd, hx⟩ := hmethod ha
      obtain ⟨-, -, hy⟩ := hmethod hb
      exact Nat.ne_of_lt (hlt d hd) (hx.trans hy.symm)

theorem checkVar_written :
    (∀ y ∈ (written steps).vars.toList.zipIdx, (written steps).checkVar y.1 y.2 = .ok ()) ↔
    ∀ s ∈ steps, ∀ d, s.definition? = some d → d.varNames.Nodup := by
  rw [← nodup_vars_written, nodup_map_iff_take]
  simp only [Program.checkVar, andThen_eq_ok_iff, require_eq_ok_iff, decide_eq_true_eq, List.all_eq_true,
    Bool.and_eq_true, Bool.or_eq_true, ne_eq, Prod.mk.injEq, not_and_or]
  refine forall₂_congr fun y hy => and_iff_right ?_
  have he : (written steps).var? y.2 = some y.1 := by
    rwa [List.mem_zipIdx_iff_getElem?, Array.getElem?_toList] at hy
  obtain ⟨x, hx, d, hd, hid, hmethod, -⟩ := var?_written_iff.1 he
  exact ⟨hid, hmethod ▸ method_lt_written hx hd⟩

/-- A method is the one that its class lists, exactly if the class was there and nothing else is declared
on it under the subsignature. -/
theorem declared_written_iff :
    (∀ x ∈ moments steps, ∀ d, x.2.definition? = some d →
      (written steps).declared? d.owner d.subsignature = some x.1.methods.size) ↔
    (∀ x ∈ moments steps, ∀ d, x.2.definition? = some d → d.owner < x.1.classes.size) ∧
      (steps.filterMap DraftStep.declaration?).Nodup := by
  have hkeys : steps.filterMap DraftStep.declaration? =
      (moments steps).filterMap fun x => x.2.declaration? := by
    conv_lhs => rw [← map_moments steps, List.filterMap_map]
    rfl
  rw [hkeys]
  constructor
  · intro h
    constructor
    · intro x hx d hd
      have hlast := h x hx d hd
      rw [declared?_written] at hlast
      obtain ⟨y, hy, hdeclares⟩ := List.mem_filterMap.1 (List.mem_of_getLast? hlast)
      obtain ⟨d', hd', -, -, hlt, hsize⟩ := DraftStep.declares?_eq_some_iff.1 hdeclares
      rwa [moment_eq hx hd hy hd' hsize.symm]
    · rw [List.nodup_iff_pairwise_ne, List.pairwise_filterMap]
      refine (pairwise_moments steps).imp_of_mem ?_
      rintro x y hx hy hlt b hb _ hb' rfl
      obtain ⟨d, hd, rfl⟩ := Option.map_eq_some_iff.1 hb
      obtain ⟨d', hd', heq⟩ := Option.map_eq_some_iff.1 hb'
      obtain ⟨howner, hsub⟩ := Prod.mk.inj heq
      have hlast := h y hy d' hd'
      rw [howner, hsub, h x hx d hd] at hlast
      exact Nat.ne_of_lt (hlt d hd) (Option.some.inj hlast)
  · rintro ⟨howners, hnodup⟩ x hx d hd
    have hlisted := DraftStep.declares?_eq_some_iff.2 ⟨d, hd, rfl, rfl, howners x hx d hd, rfl⟩
    have hlists : x.1.methods.size ∈
        (moments steps).filterMap fun x => x.2.declares? x.1 d.owner d.subsignature :=
      List.mem_filterMap.2 ⟨x, hx, hlisted⟩
    rw [declared?_written, List.getLast?_eq_some_getLast (List.ne_nil_of_mem hlists), Option.some.injEq]
    obtain ⟨y, hy, hdeclares⟩ := List.mem_filterMap.1 (List.getLast_mem (List.ne_nil_of_mem hlists))
    obtain ⟨d', hd', howner, hsub, -, hsize⟩ := DraftStep.declares?_eq_some_iff.1 hdeclares
    rw [← hsize]
    have hkey : y.2.declaration? = some (d.owner, d.subsignature) := by
      rw [DraftStep.declaration?, hd', Option.map_some, howner, hsub]
    rw [eq_of_nodup_filterMap hnodup hy hx hkey (by rw [DraftStep.declaration?, hd, Option.map_some])]

/-! ## Methods -/

theorem exists_of_mem_params {v first : VarId} {body : List BodyStep} (h : v ∈ BodyStep.params first body) :
    first ≤ v ∧ ∃ name, (body.filterMap BodyStep.varName?)[v - first]? = some name := by
  induction body generalizing first with
  | nil => cases h
  | cons s body ih =>
    cases s with
    | var name =>
      obtain ⟨hlt, name', hname⟩ := ih h
      exact ⟨Nat.le_of_lt hlt, name', (getElem?_cons_sub hlt).trans hname⟩
    | param name =>
      rcases List.mem_cons.1 h with rfl | h
      · refine ⟨Nat.le_refl _, name, ?_⟩
        rw [Nat.sub_self]
        rfl
      · obtain ⟨hlt, name', hname⟩ := ih h
        exact ⟨Nat.le_of_lt hlt, name', (getElem?_cons_sub hlt).trans hname⟩
    | ret | stmt => exact ih h

/-- The receiver and the parameters of a method are variables that it declares. -/
theorem exists_varName {m : MethodId} {v first : VarId}
    (hv : v ∈ (d.decl m first).this.toList ++ (d.decl m first).params) :
    first ≤ v ∧ ∃ name, d.varNames[v - first]? = some name := by
  cases hstatic : d.isStatic with
  | true =>
    simp only [Definition.decl, hstatic, if_true, Option.toList_none, List.nil_append] at hv
    simpa [Definition.varNames, hstatic] using exists_of_mem_params hv
  | false =>
    simp only [Definition.decl, hstatic, Bool.false_eq_true, if_false, Option.toList_some,
      List.singleton_append, List.mem_cons] at hv
    simp only [Definition.varNames, hstatic, Bool.false_eq_true, if_false, List.singleton_append]
    rcases hv with rfl | hv
    · simp
    · obtain ⟨hlt, name, hname⟩ := exists_of_mem_params hv
      exact ⟨Nat.le_of_lt hlt, name, (getElem?_cons_sub hlt).trans hname⟩

/-- The receiver and the parameters of a method are variables of its own. -/
theorem own_written (hx : x ∈ moments steps) (hd : x.2.definition? = some d) {v : VarId}
    (hv : v ∈ (d.decl x.1.methods.size x.1.vars.size).this.toList ++
      (d.decl x.1.methods.size x.1.vars.size).params) :
    ∃ e, (written steps).var? v = some e ∧ e.method = x.1.methods.size := by
  obtain ⟨hle, name, hname⟩ := exists_varName hv
  have hvar : (written steps).var? v = some ⟨v, name, x.1.methods.size⟩ :=
    var?_written_iff.2 ⟨x, hx, d, hd, rfl, rfl, hle, hname⟩
  exact ⟨_, hvar, rfl⟩

theorem checkMentioned_written (hx : x ∈ moments steps) (hd : x.2.definition? = some d) :
    (written steps).checkMentioned (d.decl x.1.methods.size x.1.vars.size) = .ok () ↔
      ∀ v ∈ x.2.vars, ∃ e, (written steps).var? v = some e ∧ e.method = x.1.methods.size := by
  have hmentioned : ∀ v, v ∈ Program.mentionedVars (d.decl x.1.methods.size x.1.vars.size) ↔
      v ∈ (d.decl x.1.methods.size x.1.vars.size).this.toList ++
        (d.decl x.1.methods.size x.1.vars.size).params ∨ v ∈ x.2.vars := by
    intro v
    simp only [Program.mentionedVars, DraftStep.vars, DraftStep.stmts, hd, Option.elim_some, List.mem_append,
      Definition.decl, or_assoc]
  rw [Program.checkMentioned_eq_ok_iff]
  simp only [hmentioned, or_imp, forall_and]
  exact and_iff_right fun v hv => own_written hx hd hv

theorem checkMethod_decl (hx : x ∈ moments steps) (hd : x.2.definition? = some d) :
    (written steps).checkMethod (d.decl x.1.methods.size x.1.vars.size) x.1.methods.size = .ok () ↔
      d.owner < (written steps).classes.size ∧
      (written steps).declared? d.owner d.subsignature = some x.1.methods.size ∧
      (∀ t ∈ x.2.stmts, t.Sound (written steps)) ∧
      ∀ v ∈ x.2.vars, ∃ e, (written steps).var? v = some e ∧ e.method = x.1.methods.size := by
  have hthis : (d.isStatic || (d.decl x.1.methods.size x.1.vars.size).this.isSome) = true := by
    cases hstatic : d.isStatic <;> simp [Definition.decl, hstatic]
  simp only [Program.checkMethod, andThen_eq_ok_iff, forM_eq_ok_iff, require_eq_ok_iff, decide_eq_true_eq,
    checkMentioned_written hx hd, Program.checkStmt_eq_ok_iff, DraftStep.stmts, hd, Option.elim_some]
  simp only [Definition.decl] at hthis ⊢
  simp only [hthis, true_and]

theorem checkMethod_written :
    (∀ y ∈ (written steps).methods.toList.zipIdx, (written steps).checkMethod y.1 y.2 = .ok ()) ↔
    (∀ x ∈ moments steps, ∀ d, x.2.definition? = some d →
      (written steps).declared? d.owner d.subsignature = some x.1.methods.size) ∧
    (∀ s ∈ steps, ∀ t ∈ s.stmts, t.Sound (written steps)) ∧
    ∀ x ∈ moments steps, ∀ v ∈ x.2.vars, ∃ e, (written steps).var? v = some e ∧
      e.method = x.1.methods.size := by
  have hmethod : ∀ {e m}, (e, m) ∈ (written steps).methods.toList.zipIdx ↔
      (written steps).method? m = some e := by
    intro e m
    rw [List.mem_zipIdx_iff_getElem?, Array.getElem?_toList, Program.method?]
  rw [forall_steps_iff]
  constructor
  · intro h
    have hcheck : ∀ x ∈ moments steps, ∀ d, x.2.definition? = some d →
        (written steps).checkMethod (d.decl x.1.methods.size x.1.vars.size) x.1.methods.size = .ok () :=
      fun x hx d hd => h (_, _) (hmethod.2 (method?_written_iff.2 ⟨x, hx, d, hd, rfl, rfl⟩))
    refine ⟨fun x hx d hd => ((checkMethod_decl hx hd).1 (hcheck x hx d hd)).2.1, fun x hx => ?_,
      fun x hx => ?_⟩
    · cases hd : x.2.definition? with
      | none => simp [DraftStep.stmts, hd]
      | some d => exact ((checkMethod_decl hx hd).1 (hcheck x hx d hd)).2.2.1
    · cases hd : x.2.definition? with
      | none => simp [DraftStep.vars, DraftStep.stmts, hd]
      | some d => exact ((checkMethod_decl hx hd).1 (hcheck x hx d hd)).2.2.2
  · rintro ⟨hdeclared, hsound, hvars⟩ ⟨e, m⟩ hm
    obtain ⟨x, hx, d, hd, rfl, rfl⟩ := method?_written_iff.1 (hmethod.1 hm)
    -- a class that lists something is there
    obtain ⟨c, hc, -⟩ := Option.bind_eq_some_iff.1 (hdeclared x hx d hd)
    exact (checkMethod_decl hx hd).2
      ⟨(Array.getElem?_eq_some_iff.1 hc).1, hdeclared x hx d hd, hsound x hx, hvars x hx⟩

theorem sound_stmts_iff {p : Program} : (∀ s ∈ steps, ∀ t ∈ s.stmts, t.Sound p) ↔
    (∀ s ∈ steps, ∀ t ∈ s.stmts, ∀ c ∈ t.classes, c < p.classes.size) ∧
    (∀ s ∈ steps, ∀ f ∈ s.fields, f < p.fields.size) ∧
    ∀ s ∈ steps, ∀ c, .call c ∈ s.stmts → c.isStatic = false → c.receiver.isSome := by
  constructor
  · intro h
    refine ⟨fun s hs t ht => (h s hs t ht).classes, fun s hs f hf => ?_,
      fun s hs c hc hstatic => (h s hs _ hc).receiver c rfl hstatic⟩
    obtain ⟨t, ht, hf⟩ := List.mem_flatMap.1 hf
    exact (h s hs t ht).fields f hf
  · rintro ⟨hclasses, hfields, hreceivers⟩ s hs t ht
    refine ⟨hclasses s hs t ht, fun f hf => hfields s hs f (List.mem_flatMap.2 ⟨t, ht, hf⟩), ?_⟩
    rintro c rfl hstatic
    exact hreceivers s hs c ht hstatic

theorem own_vars_iff : (∀ x ∈ moments steps, ∀ v ∈ x.2.vars, ∃ e, (written steps).var? v = some e ∧
      e.method = x.1.methods.size) ↔
    (∀ s ∈ steps, ∀ v ∈ s.vars, v < (written steps).vars.size) ∧
    ∀ x ∈ moments steps, ∀ v ∈ x.2.vars, ∀ e, (written steps).var? v = some e →
      e.method = x.1.methods.size := by
  rw [forall_steps_iff]
  constructor
  · intro h
    constructor
    · intro x hx v hv
      obtain ⟨e, he, -⟩ := h x hx v hv
      exact (Array.getElem?_eq_some_iff.1 he).1
    · intro x hx v hv e he
      obtain ⟨e', he', hmethod⟩ := h x hx v hv
      obtain rfl := Option.some.inj (he.symm.trans he')
      exact hmethod
  · rintro ⟨hlt, hown⟩ x hx v hv
    obtain ⟨e, he⟩ : ∃ e, (written steps).var? v = some e :=
      ⟨_, Array.getElem?_eq_getElem (hlt x hx v hv)⟩
    exact ⟨e, he, hown x hx v hv e he⟩

/-! ## The outcome -/

theorem checkRoots_written : (written steps).checkRoots = .ok () ↔
    (∀ c ∈ (steps.filterMap DraftStep.rootClass?).getLast?, c < (written steps).classes.size) ∧
      ∀ m ∈ (steps.filterMap DraftStep.entry?).getLast?, m < (written steps).methods.size := by
  simp only [Program.checkRoots, andThen_eq_ok_iff, forM_eq_ok_iff, require_eq_ok_iff, decide_eq_true_eq,
    Option.mem_toList, Option.mem_def, rootClass_written, entry_written]

/-- The check of the hierarchy passes exactly if no steps put a class above itself. -/
theorem checkAcyclic_written (h : ∀ x ∈ moments steps, x.2.Proper x.1)
    (hlt : ∀ c, ∀ sup ∈ (written steps).supertypes c, sup < (written steps).classes.size) :
    (written steps).checkAcyclic = .ok () ↔
      ∀ c, ¬ Relation.TransGen (fun c sup => ∃ x ∈ moments steps, x.2.Below x.1 c sup) c c := by
  rw [Program.checkAcyclic_eq_ok_iff hlt]
  simp only [mem_supertypes_written steps h]

/-- The classes that steps mention are superclasses, owners of fields, and classes of statements. -/
theorem forall_classes_iff (h : ∀ x ∈ moments steps, x.2.Proper x.1) {P : ClassId → Prop} :
    (∀ s ∈ steps, ∀ c ∈ s.classes, P c) ↔
    (∀ c, ∀ sup ∈ (written steps).supertypes c, P sup) ∧
    (∀ x ∈ moments steps, ∀ e, x.2.field? x.1.fields.size = some e → P e.owner) ∧
    ∀ s ∈ steps, ∀ t ∈ s.stmts, ∀ c ∈ t.classes, P c := by
  rw [forall_steps_iff, forall_steps_iff]
  constructor
  · intro hclasses
    have hmem : ∀ x ∈ moments steps, ∀ c, (((∃ d, x.2.Below x.1 d c) ∨
        ∃ e, x.2.field? x.1.fields.size = some e ∧ e.owner = c) ∨ ∃ t ∈ x.2.stmts, c ∈ t.classes) → P c :=
      fun x hx c hc => hclasses x hx c ((DraftStep.mem_classes_iff x.1).2 hc)
    refine ⟨fun c sup hsup => ?_, fun x hx e he => hmem x hx _ (Or.inl (Or.inr ⟨e, he, rfl⟩)),
      fun x hx t ht c hc => hmem x hx c (Or.inr ⟨t, ht, hc⟩)⟩
    obtain ⟨x, hx, hbelow⟩ := (mem_supertypes_written steps h c sup).1 hsup
    exact hmem x hx sup (Or.inl (Or.inl ⟨c, hbelow⟩))
  · rintro ⟨hsups, howners, hstmts⟩ x hx c hc
    rcases (DraftStep.mem_classes_iff x.1).1 hc with (⟨d, hbelow⟩ | ⟨e, he, rfl⟩) | ⟨t, ht, hc⟩
    · exact hsups d c ((mem_supertypes_written steps h d c).2 ⟨x, hx, hbelow⟩)
    · exact howners x hx e he
    · exact hstmts x hx t ht c hc

/-- The checks pass exactly if the steps are without fault. -/
theorem validate_written_iff (h : ∀ x ∈ moments steps, x.2.Proper x.1) :
    (written steps).validate = .ok () ↔ Faultless steps := by
  rw [Program.validate_eq_ok_iff, checkClass_written, checkField_written, checkVar_written,
    checkMethod_written, declared_written_iff, sound_stmts_iff, own_vars_iff, checkRoots_written]
  constructor
  · rintro ⟨⟨hnames, hsups⟩, hacyclic, howners, hvarNames, ⟨⟨hclass, hsubs⟩, ⟨hstmts, hfields, hreceivers⟩,
      hvars, hown⟩, hroot, hentry⟩
    exact {
      classNames := hnames
      classes := (forall_classes_iff h).2 ⟨hsups, howners, hstmts⟩
      fields := hfields
      vars := hvars
      rootClass := hroot
      entry := hentry
      owners := hclass
      subsignatures := hsubs
      acyclic := (checkAcyclic_written h hsups).1 hacyclic
      varNames := hvarNames
      ownVars := hown
      receivers := hreceivers }
  · intro hf
    obtain ⟨hsups, howners, hstmts⟩ := (forall_classes_iff h).1 hf.classes
    exact ⟨⟨hf.classNames, hsups⟩, (checkAcyclic_written h hsups).2 hf.acyclic, howners, hf.varNames,
      ⟨⟨hf.owners, hf.subsignatures⟩, ⟨hstmts, hf.fields, hf.receivers⟩, hf.vars, hf.ownVars⟩,
      hf.rootClass, hf.entry⟩

/-- What the steps have written is in order, whatever their faults. -/
structure InOrder (steps : List DraftStep) : Prop where
  classId : ∀ c e, (written steps).class? c = some e → e.id = c
  fieldId : ∀ f e, (written steps).field? f = some e → e.id = f
  methodId : ∀ m e, (written steps).method? m = some e → e.id = m
  varId : ∀ v e, (written steps).var? v = some e → e.id = v
  /-- The methods are those that the steps define. -/
  method : ∀ m e, (written steps).method? m = some e ↔ ∃ x ∈ moments steps, ∃ d,
    x.2.definition? = some d ∧ x.1.methods.size = m ∧ d.decl m x.1.vars.size = e
  /-- A variable belongs to the method whose body declares it. -/
  var : ∀ v e, (written steps).var? v = some e ↔ ∃ x ∈ moments steps, ∃ d,
    x.2.definition? = some d ∧ e.id = v ∧ e.method = x.1.methods.size ∧
      x.1.vars.size ≤ v ∧ d.varNames[v - x.1.vars.size]? = some e.name
  /-- An instance method has a variable of its own for the receiver. -/
  this : ∀ m e, (written steps).method? m = some e → e.isStatic = false →
    ∃ v, e.this = some v ∧ (written steps).var? v = some ⟨v, "this", m⟩
  /-- A class lists under a subsignature what has been defined last on it, once it was there. -/
  declared : ∀ c e, (written steps).class? c = some e → ∀ subsignature, e.methods.get? subsignature =
    ((moments steps).filterMap fun x => x.2.declares? x.1 c subsignature).getLast?

theorem inOrder (steps : List DraftStep) : InOrder steps where
  classId _ _ := class_id_written
  fieldId _ _ := field_id_written
  methodId _ _ := method_id_written
  varId _ _ := var_id_written
  method _ _ := method?_written_iff
  var _ _ := var?_written_iff
  this m e he hstatic := by
    obtain ⟨x, hx, d, hd, rfl, rfl⟩ := method?_written_iff.1 he
    have hdecl : d.isStatic = false := hstatic
    refine ⟨x.1.vars.size, by simp [Definition.decl, hdecl], var?_written_iff.2 ?_⟩
    exact ⟨x, hx, d, hd, rfl, rfl, Nat.le_refl _, by simp [Definition.varNames, hdecl]⟩
  declared c e he subsignature := by
    rw [← declared?_written, Program.declared?, he, Option.bind_some]

end Draft

namespace Sample

/-- `class A { … }`, `interface I { … }` and `class B extends A implements I { … }`, with bodies. -/
def written : List DraftStep := [
  .newClass "A",
  .field false 0 "f",
  .newInterface "I",
  .abstractMethod 1 "A run(A,A)" 2,
  .newSubclass "B" 0,
  .implement 2 1,
  .method 2 "A run(A,A)" [.param "x", .param "y", .stmt (.storeField 3 0 4), .ret 5],
  .staticMethod 0 "void main()" [
    .var "b",
    .stmt (.new 6 (.ofClass 2)),
    .stmt (.call (.onReceiver .interface 6 1 "A run(A,A)" [6, 6] none))],
  .markAbstract 0,
  .rootClass 0,
  .entry 2]

/-- A method is defined on a class that is written after it. -/
def early : List DraftStep := [.staticMethod 0 "void main()" [], .newClass "A"]

/-- A method is defined again, and the class lists the later one. -/
def twice : List DraftStep :=
  [.newClass "A", .staticMethod 0 "void main()" [], .staticMethod 0 "void main()" []]

end Sample

namespace Draft

/-- However a program is written, by steps that change only classes which are there: its tables are in
order, and it is built, exactly if the steps are without fault. -/
theorem build_exact (steps : List DraftStep) (h : ∀ x ∈ moments steps, x.2.Proper x.1) :
    InOrder steps ∧
    ∀ q, (ofSteps steps).build = .ok q ↔ Faultless steps ∧ q = (written steps).indexed := by
  refine ⟨inOrder steps, fun q => ?_⟩
  have hbuild : (ofSteps steps).build = (written steps).check := rfl
  rw [hbuild, Program.check, bind_eq_ok_iff, ← validate_written_iff h]
  constructor
  · rintro ⟨⟨⟩, hvalid, hq⟩
    cases hq
    exact ⟨hvalid, rfl⟩
  · rintro ⟨hvalid, rfl⟩
    exact ⟨(), hvalid, rfl⟩

/-- The first program is built. The other two are not: its class lacks the method, or lists only the later
one. -/
theorem build_exact_samples :
    Faultless Sample.written ∧ ¬ Faultless Sample.early ∧ ¬ Faultless Sample.twice ∧
    (written Sample.early).declared? 0 "void main()" = none ∧
    (written Sample.twice).declared? 0 "void main()" = some 1 := by
  obtain ⟨-, hwritten⟩ := build_exact Sample.written (by decide)
  obtain ⟨-, hearly⟩ := build_exact Sample.early (by decide)
  obtain ⟨-, htwice⟩ := build_exact Sample.twice (by decide)
  have hvalid : (written Sample.written).validate = .ok () := by decide +kernel
  have hbuild : (ofSteps Sample.written).build = .ok (written Sample.written).indexed := by
    show (written Sample.written).check = _
    rw [Program.check, hvalid]
    rfl
  refine ⟨((hwritten _).1 hbuild).1, ?_, ?_, by decide, by decide⟩
  · intro hf
    have hok := (hearly _).2 ⟨hf, rfl⟩
    cases hok
  · intro hf
    have hok := (htwice _).2 ⟨hf, rfl⟩
    cases hok

end Draft

end PointsTo
