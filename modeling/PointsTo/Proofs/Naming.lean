import Mathlib.Data.List.Infix
import Mathlib.Data.List.Pairwise
import PointsTo.Analysis.Summary
import PointsTo.Proofs.Subtypes

/-!
# Names tell things apart

Names are glued together from the names of a program, so they can be taken apart again only if no part
holds the separator that ends it. `Program.WellNamed` says so of every class, method and field. In a
checked program that is well named, methods, variables and objects have names of their own
(`method_of_signature`, `varName_inj`, `describe_append_inj`). A field's name does not: it leaves out
the class that declares the field, so fields of one name look the same in an object that has both
(`heapName?_eq_iff`).
-/

namespace PointsTo

/-! ## Cutting glued text -/

section

variable {α : Type} {a b : α} {xs ys us vs : List α}

/-- Text ends where a separator of two different characters stands that it does not hold. -/
theorem append_pair_inj (hab : a ≠ b) (hxs : ¬[a, b] <:+: xs) (hys : ¬[a, b] <:+: ys)
    (h : xs ++ a :: b :: us = ys ++ a :: b :: vs) : xs = ys ∧ us = vs := by
  induction xs generalizing ys with
  | nil =>
    cases ys with
    | nil => simpa using h
    | cons y ys =>
      -- the separator would begin within the longer text
      exfalso
      cases ys with
      | nil =>
        simp only [List.nil_append, List.cons_append, List.cons.injEq] at h
        exact hab h.2.1.symm
      | cons y' ys =>
        simp only [List.nil_append, List.cons_append, List.cons.injEq] at h
        obtain ⟨rfl, rfl, -⟩ := h
        exact hys ⟨[], ys, rfl⟩
  | cons x xs ih =>
    cases ys with
    | nil =>
      exfalso
      cases xs with
      | nil =>
        simp only [List.nil_append, List.cons_append, List.cons.injEq] at h
        exact hab h.2.1
      | cons x' xs =>
        simp only [List.nil_append, List.cons_append, List.cons.injEq] at h
        obtain ⟨rfl, rfl, -⟩ := h
        exact hxs ⟨[], xs, rfl⟩
    | cons y ys =>
      simp only [List.cons_append, List.cons.injEq] at h
      obtain ⟨rfl, h⟩ := h
      obtain ⟨rfl, rfl⟩ := ih (fun hc => hxs (List.infix_cons hc)) (fun hc => hys (List.infix_cons hc)) h
      exact ⟨rfl, rfl⟩

/-- Two characters in a row stand in one of two texts, or where these meet. -/
theorem not_infix_append (hxs : ¬[a, b] <:+: xs) (hys : ¬[a, b] <:+: ys) (hhead : ys.head? ≠ some b) :
    ¬[a, b] <:+: xs ++ ys := by
  induction xs with
  | nil => exact hys
  | cons x xs ih =>
    rw [List.cons_append, List.infix_cons_iff]
    rintro (hp | hi)
    · obtain ⟨rfl, hb⟩ := List.cons_prefix_cons.1 hp
      cases xs with
      | nil =>
        obtain ⟨t, ht⟩ := hb
        exact hhead (by rw [← List.nil_append ys, ← ht]; rfl)
      | cons x' xs =>
        obtain ⟨rfl, -⟩ := List.cons_prefix_cons.1 hb
        exact hxs ⟨[], xs, rfl⟩
    · exact ih (fun hx => hxs (List.infix_cons hx)) hi

/-- Text all of whose characters pass a test ends at the first one that does not. -/
theorem append_inj_of_all {test : α → Bool} (hxs : ∀ c ∈ xs, test c = true)
    (hys : ∀ c ∈ ys, test c = true) (hus : ∀ c ∈ us.head?, test c = false)
    (hvs : ∀ c ∈ vs.head?, test c = false) (h : xs ++ us = ys ++ vs) : xs = ys ∧ us = vs := by
  have htake : ∀ {xs us : List α}, (∀ c ∈ xs, test c = true) → (∀ c ∈ us.head?, test c = false) →
      (xs ++ us).takeWhile test = xs := by
    intro xs us hxs hus
    rw [List.takeWhile_append_of_pos hxs]
    cases us with
    | nil => simp
    | cons c us => simp [hus c rfl]
  have hxy : xs = ys := by
    rw [← htake hxs hus, h, htake hys hvs]
  subst hxy
  exact ⟨rfl, List.append_cancel_left h⟩

/-- Text ends at the last place of a character if what follows does not hold it. -/
theorem append_cons_inj_of_last [DecidableEq α] (hus : a ∉ us) (hvs : a ∉ vs)
    (h : xs ++ a :: us = ys ++ a :: vs) : xs = ys ∧ us = vs := by
  have hr : us.reverse ++ a :: xs.reverse = vs.reverse ++ a :: ys.reverse := by
    simpa using congrArg List.reverse h
  have hne : ∀ {us : List α}, a ∉ us → ∀ c ∈ us.reverse, decide (c ≠ a) = true := by
    intro us hus c hc
    rw [List.mem_reverse] at hc
    exact decide_eq_true fun hca => hus (hca ▸ hc)
  obtain ⟨hu, hx⟩ := append_inj_of_all (hne hus) (hne hvs) (by simp) (by simp) hr
  exact ⟨List.reverse_inj.1 (List.cons.inj hx).2, List.reverse_inj.1 hu⟩

end

/-! ## What has one name only -/

section

variable {α β : Type} {f : α → β} {xs : List α} {i j : Nat} {x y : α}

/-- A list repeats nothing exactly if each member differs from those before it. -/
theorem nodup_map_iff_take : (xs.map f).Nodup ↔ ∀ x ∈ xs.zipIdx, ∀ y ∈ xs.take x.2, f y ≠ f x.1 := by
  rw [List.nodup_iff_pairwise_ne, List.pairwise_map, List.pairwise_iff_getElem]
  constructor
  · intro h x hx y hy
    obtain ⟨j, hj, rfl⟩ := List.mem_take_iff_getElem.1 hy
    obtain ⟨hi, hxi⟩ := List.getElem?_eq_some_iff.1 (List.mem_zipIdx_iff_getElem?.1 hx)
    exact hxi ▸ h j x.2 (by omega) hi (by omega)
  · intro h i j hi hj hlt
    refine h (xs[j], j) (List.mem_zipIdx_iff_getElem?.2 (List.getElem?_eq_getElem hj)) xs[i] ?_
    exact List.mem_take_iff_getElem.2 ⟨i, by omega, rfl⟩

/-- In a list that repeats nothing a position is known by what stands there. -/
theorem position_eq (h : (xs.map f).Nodup) (hi : xs[i]? = some x) (hj : xs[j]? = some y)
    (hxy : f x = f y) : i = j := by
  obtain ⟨hlt, -⟩ := List.getElem?_eq_some_iff.1 hi
  refine (List.getElem?_inj (by simpa using hlt) h).1 ?_
  rw [List.getElem?_map, List.getElem?_map, hi, hj, Option.map_some, Option.map_some, hxy]

end

namespace Program

variable {p : Program}

theorem nodup_classNames (hp : p.validate = .ok ()) : (p.classes.toList.map (·.name)).Nodup := by
  refine nodup_map_iff_take.2 fun x hx y hy => ?_
  have hcheck := (validate_eq_ok_iff.1 hp).1 x hx
  simp only [checkClass, andThen_eq_ok_iff, require_eq_ok_iff, List.all_eq_true,
    decide_eq_true_eq] at hcheck
  exact hcheck.2.1 y hy

/-- Classes have names of their own. -/
theorem class_eq_of_name (hp : p.validate = .ok ()) {c c' : ClassId} {d d' : ClassDecl}
    (hc : p.class? c = some d) (hc' : p.class? c' = some d') (h : d.name = d'.name) : c = c' :=
  position_eq (nodup_classNames hp) (by simpa [class?] using hc) (by simpa [class?] using hc') h

/-- A class lists the methods that name it as their owner. -/
theorem declared?_of_method (hp : p.validate = .ok ()) {m : MethodId} {d : MethodDecl}
    (hm : p.method? m = some d) : p.declared? d.owner d.subsignature = some m := by
  have hcheck := checkMethod_of_validate hp hm
  simp only [checkMethod, andThen_eq_ok_iff, require_eq_ok_iff, decide_eq_true_eq] at hcheck
  rw [hcheck.2.2.1, hcheck.1]

/-- A method is declared by a class of the program. -/
theorem owner_of_method (hp : p.validate = .ok ()) {m : MethodId} {d : MethodDecl}
    (hm : p.method? m = some d) : ∃ c, p.class? d.owner = some c := by
  have hcheck := checkMethod_of_validate hp hm
  simp only [checkMethod, andThen_eq_ok_iff, require_eq_ok_iff, decide_eq_true_eq] at hcheck
  exact ⟨_, Array.getElem?_eq_getElem hcheck.2.1⟩

/-- A class declares one method under a subsignature. -/
theorem method_eq_of_subsignature (hp : p.validate = .ok ()) {m m' : MethodId} {d d' : MethodDecl}
    (hm : p.method? m = some d) (hm' : p.method? m' = some d') (howner : d.owner = d'.owner)
    (hsub : d.subsignature = d'.subsignature) : m = m' := by
  have h := declared?_of_method hp hm
  rw [howner, hsub, declared?_of_method hp hm'] at h
  exact (Option.some.inj h).symm

/-- A variable belongs to a method of the program. -/
theorem method_of_var (hp : p.validate = .ok ()) {v : VarId} {d : VarDecl}
    (hv : p.var? v = some d) : ∃ m, p.method? d.method = some m := by
  have h := checkVar_of_validate hp hv
  simp only [checkVar, andThen_eq_ok_iff, require_eq_ok_iff, Bool.and_eq_true,
    decide_eq_true_eq] at h
  exact ⟨_, Array.getElem?_eq_getElem h.1.2⟩

/-- Variables of one method have names of their own. -/
theorem var_eq_of_name (hp : p.validate = .ok ()) {v v' : VarId} {d d' : VarDecl}
    (hv : p.var? v = some d) (hv' : p.var? v' = some d') (hm : d.method = d'.method)
    (hname : d.name = d'.name) : v = v' := by
  have hnodup : (p.vars.toList.map fun d => (d.method, d.name)).Nodup := by
    refine nodup_map_iff_take.2 fun x hx y hy heq => ?_
    obtain ⟨-, -, -, hvars, -⟩ := validate_eq_ok_iff.1 hp
    have hcheck := hvars x hx
    simp only [checkVar, andThen_eq_ok_iff, require_eq_ok_iff, List.all_eq_true, Bool.or_eq_true,
      decide_eq_true_eq] at hcheck
    rcases hcheck.2 y hy with h | h
    · exact h (Prod.mk.inj heq).1
    · exact h (Prod.mk.inj heq).2
  exact position_eq hnodup (by simpa [var?] using hv) (by simpa [var?] using hv')
    (Prod.ext hm hname)

end Program

namespace Heap

variable {p : Program}

/-- The sites of a method's allocations. -/
theorem map_allocations (m : MethodDecl) : (allocations m).map (·.1) =
    (m.sites.filter fun x => match x.2 with | .new .. => true | _ => false).map (·.1) := by
  rw [allocations]
  induction m.sites with
  | nil => rfl
  | cons x xs ih =>
    obtain ⟨site, stmt⟩ := x
    cases stmt <;> simpa using ih

/-- Every allocation is listed under its own site. -/
theorem nodup_allocations (hp : p.validate = .ok ()) :
    ((p.methods.toList.flatMap allocations).map (·.1)).Nodup := by
  have hsites : (p.methods.toList.flatMap allocations).map (·.1) =
      p.sitesWhere fun | .new .. => true | _ => false := by
    rw [List.map_flatMap, Program.sitesWhere]
    exact congrArg (p.methods.toList.flatMap ·) (funext map_allocations)
  rw [hsites]
  exact Program.nodup_sitesWhere hp _

/-- An allocation has one object. -/
theorem object_eq_of_site (hp : p.validate = .ok ()) {i j : ObjId} {a b : AbstractObject}
    (ha : (Heap.ofProgram p).object? i = some a) (hb : (Heap.ofProgram p).object? j = some b)
    (h : a.site = b.site) : i = j := by
  have hallocation : ∀ {i a}, (Heap.ofProgram p).object? i = some a →
      (p.methods.toList.flatMap allocations)[i]? = some (a.site, a.ty, a.container) := by
    intro i a ha
    simp only [object?, ofProgram, List.getElem?_toArray, List.getElem?_map, Option.map_eq_some_iff,
      List.getElem?_zipIdx] at ha
    obtain ⟨_, ⟨x, hx, rfl⟩, rfl⟩ := ha
    exact hx
  exact position_eq (nodup_allocations hp) (hallocation ha) (hallocation hb) h

end Heap

/-! ## Programs with plain names -/

/-- The name does not hold the two characters in a row. -/
def Lacks (name : String) (a b : Char) : Prop := ¬[a, b] <:+: name.toList

instance {name : String} {a b : Char} : Decidable (Lacks name a b) :=
  inferInstanceAs (Decidable (¬[a, b] <:+: name.toList))

/-- No name holds what ends it in a longer name: the class `: ` before a subsignature and `@<` before a
method, the subsignature `>/` before a variable and `>#` before a position, the field the `.` behind an
object or a class. -/
structure Program.WellNamed (p : Program) : Prop where
  classes : ∀ c ∈ p.classes.toList, Lacks c.name ':' ' ' ∧ Lacks c.name '@' '<'
  methods : ∀ m ∈ p.methods.toList, Lacks m.subsignature '>' '/' ∧ Lacks m.subsignature '>' '#'
  fields : ∀ f ∈ p.fields.toList, '.' ∉ f.name.toList ∧ Lacks f.name '@' '<'

namespace Program

variable {p : Program}

theorem className_eq {c : ClassId} {d : ClassDecl} (hc : p.class? c = some d) :
    p.className c = d.name := by
  rw [className, hc]
  rfl

theorem signature_eq {m : MethodId} {d : MethodDecl} (hm : p.method? m = some d) :
    p.signature m = p.signatureOf d := by
  rw [signature, hm]
  rfl

theorem toList_signatureOf (d : MethodDecl) : (p.signatureOf d).toList =
    '<' :: ((p.className d.owner).toList ++ ':' :: ' ' :: (d.subsignature.toList ++ ['>'])) := by
  simp [signatureOf, String.toList_append, toString]

theorem WellNamed.lacks_className (hn : p.WellNamed) (c : ClassId) :
    Lacks (p.className c) ':' ' ' ∧ Lacks (p.className c) '@' '<' := by
  cases hc : p.class? c with
  | none =>
    rw [className, hc]
    decide
  | some d =>
    rw [className_eq hc]
    exact hn.classes d (List.mem_of_getElem? (by simpa [class?] using hc))

theorem WellNamed.lacks_typeName (hn : p.WellNamed) (ty : TypeRef) :
    Lacks (p.typeName ty) '@' '<' := by
  induction ty with
  | ofClass c => exact (hn.lacks_className c).2
  | arrayOf elem ih =>
    rw [Lacks, typeName, String.toList_append]
    exact not_infix_append ih (by decide) (by decide)

theorem WellNamed.lacks_subsignature (hn : p.WellNamed) {m : MethodId} {d : MethodDecl}
    (hm : p.method? m = some d) : Lacks d.subsignature '>' '/' ∧ Lacks d.subsignature '>' '#' :=
  hn.methods d (List.mem_of_getElem? (by simpa [method?] using hm))

/-- A signature tells its method, and where it ends. -/
theorem method_of_signature (hp : p.validate = .ok ()) (hn : p.WellNamed) {m m' : MethodId}
    {d d' : MethodDecl} (hm : p.method? m = some d) (hm' : p.method? m' = some d') {sep : Char}
    (hsep : '>' ≠ sep) (hd : Lacks d.subsignature '>' sep) (hd' : Lacks d'.subsignature '>' sep)
    {us vs : List Char}
    (h : (p.signatureOf d).toList ++ sep :: us = (p.signatureOf d').toList ++ sep :: vs) :
    m = m' ∧ us = vs := by
  simp only [toList_signatureOf, List.cons_append, List.append_assoc, List.nil_append,
    List.cons.injEq, true_and] at h
  obtain ⟨hclass, h⟩ := append_pair_inj (by decide) (hn.lacks_className _).1 (hn.lacks_className _).1 h
  obtain ⟨hsub, huv⟩ := append_pair_inj hsep hd hd' h
  obtain ⟨c, hc⟩ := owner_of_method hp hm
  obtain ⟨c', hc'⟩ := owner_of_method hp hm'
  rw [className_eq hc, className_eq hc'] at hclass
  have hcc := class_eq_of_name hp hc hc' (String.toList_inj.1 hclass)
  exact ⟨method_eq_of_subsignature hp hm hm' hcc (String.toList_inj.1 hsub), huv⟩

/-- Variables have names of their own. -/
theorem varName_inj (hp : p.validate = .ok ()) (hn : p.WellNamed) {v v' : VarId} {d d' : VarDecl}
    (hv : p.var? v = some d) (hv' : p.var? v' = some d') (h : p.varName v = p.varName v') :
    v = v' := by
  obtain ⟨m, hm⟩ := method_of_var hp hv
  obtain ⟨m', hm'⟩ := method_of_var hp hv'
  have hname : ∀ {v d m}, p.var? v = some d → p.method? d.method = some m →
      (p.varName v).toList = (p.signatureOf m).toList ++ '/' :: d.name.toList := by
    intro v d m hv hm
    simp [varName, hv, signature_eq hm, String.toList_append, toString]
  have hlist := congrArg String.toList h
  rw [hname hv hm, hname hv' hm'] at hlist
  obtain ⟨hmethod, hvar⟩ := method_of_signature hp hn hm hm' (by decide)
    (hn.lacks_subsignature hm).1 (hn.lacks_subsignature hm').1 hlist
  exact var_eq_of_name hp hv hv' hmethod (String.toList_inj.1 hvar)

end Program

namespace AbstractObject

variable {p : Program}

theorem toList_describe (a : AbstractObject) : (a.describe p).toList =
    (p.typeName a.ty).toList ++ '@' :: ((p.signature a.site.method).toList ++
      '#' :: Nat.toDigits 10 a.site.index) := by
  simp [describe, String.toList_append, toString, Nat.repr_eq_ofList_toDigits]

/-- A described object tells its allocation, and where its description ends. -/
theorem describe_append_inj (hp : p.validate = .ok ()) (hn : p.WellNamed) {i j : ObjId}
    {a b : AbstractObject} (ha : (Heap.ofProgram p).object? i = some a)
    (hb : (Heap.ofProgram p).object? j = some b) {us vs : List Char}
    (hus : ∀ c ∈ us.head?, c.isDigit = false) (hvs : ∀ c ∈ vs.head?, c.isDigit = false)
    (h : (a.describe p).toList ++ us = (b.describe p).toList ++ vs) : i = j ∧ us = vs := by
  obtain ⟨-, d, -, hd, -⟩ := Heap.allocated_of_object? hp ha
  obtain ⟨-, d', -, hd', -⟩ := Heap.allocated_of_object? hp hb
  have hsplit : ∀ {a : AbstractObject} {d us}, p.method? a.site.method = some d →
      (a.describe p).toList ++ us = (p.typeName a.ty).toList ++ '@' :: '<' ::
        ((p.signatureOf d).toList.tail ++ '#' :: (Nat.toDigits 10 a.site.index ++ us)) := by
    intro a d us hd
    simp [toList_describe, Program.signature_eq hd, Program.toList_signatureOf]
  rw [hsplit hd, hsplit hd'] at h
  obtain ⟨-, h⟩ := append_pair_inj (by decide) (hn.lacks_typeName _) (hn.lacks_typeName _) h
  have hsig : (p.signatureOf d).toList ++ '#' :: (Nat.toDigits 10 a.site.index ++ us) =
      (p.signatureOf d').toList ++ '#' :: (Nat.toDigits 10 b.site.index ++ vs) := by
    simpa [Program.toList_signatureOf] using h
  obtain ⟨hmethod, hrest⟩ := Program.method_of_signature hp hn hd hd' (by decide)
    (hn.lacks_subsignature hd).2 (hn.lacks_subsignature hd').2 hsig
  have hdigits : ∀ n, ∀ c ∈ Nat.toDigits 10 n, c.isDigit = true :=
    fun n c hc => Nat.isDigit_of_mem_toDigits (by decide) (by decide) hc
  obtain ⟨hindex, huv⟩ := append_inj_of_all (hdigits _) (hdigits _) hus hvs hrest
  have hnumber := congrArg (fun ds => Nat.ofDigitChars 10 ds 0) hindex
  simp only [Nat.ofDigitChars_ten_toDigits] at hnumber
  refine ⟨Heap.object_eq_of_site hp ha hb ?_, huv⟩
  show (⟨a.site.method, a.site.index⟩ : Site) = ⟨b.site.method, b.site.index⟩
  rw [hmethod, hnumber]

end AbstractObject

namespace Place

/-- The program has the variable or the field of the place, and the heap the object. -/
def In (p : Program) (h : Heap) : Place → Prop
  | var v => ∃ d, p.var? v = some d
  | instanceField o f => (∃ a, h.object? o = some a) ∧ ∃ d, p.field? f = some d
  | staticField f => ∃ d, p.field? f = some d
  | arraySlots o => ∃ a, h.object? o = some a

/-- The heap places are one place, or fields of one name, in one object or both static in one class. -/
def Alike (p : Program) : Place → Place → Prop
  | instanceField o f, instanceField o' f' => o = o' ∧ p.fieldName f = p.fieldName f'
  | staticField f, staticField f' =>
    (p.field? f).map (·.owner) = (p.field? f').map (·.owner) ∧ p.fieldName f = p.fieldName f'
  | arraySlots o, arraySlots o' => o = o'
  | _, _ => False

/-- The object to which the place belongs, and what its name has behind the object. -/
def member? (p : Program) : Place → Option (ObjId × List Char)
  | instanceField o f => some (o, '.' :: (p.fieldName f).toList)
  | arraySlots o => some (o, ['[', '*', ']'])
  | _ => none

variable {p : Program} {x y : Place}

theorem head?_of_member? {o : ObjId} {tail : List Char} (hx : x.member? p = some (o, tail)) :
    ∀ c ∈ tail.head?, c.isDigit = false := by
  intro c hc
  cases x with
  | instanceField o f =>
    cases hx
    cases hc
    decide
  | arraySlots o =>
    cases hx
    cases hc
    decide
  | _ => cases hx

/-- Places of objects are alike if object and tail are the same. -/
theorem alike_iff_of_member? {m m' : ObjId × List Char} (hx : x.member? p = some m)
    (hy : y.member? p = some m') : x.Alike p y ↔ m = m' := by
  cases x with
  | instanceField o f =>
    cases hx
    cases y with
    | instanceField o' f' =>
      cases hy
      simp [Alike, String.toList_inj]
    | arraySlots o' =>
      cases hy
      simp [Alike]
    | _ => cases hy
  | arraySlots o =>
    cases hx
    cases y with
    | instanceField o' f' =>
      cases hy
      simp [Alike]
    | arraySlots o' =>
      cases hy
      simp [Alike]
    | _ => cases hy
  | _ => cases hx

/-- A heap place is named by the described object and a tail, or by a class and a static field. -/
theorem In.heapName?_cases (hx : x.In p (.ofProgram p)) (hv : x.var? = none) :
    (∃ o a tail, x.member? p = some (o, tail) ∧ (Heap.ofProgram p).object? o = some a ∧
      (x.heapName? p (.ofProgram p)).map (·.toList) = some ((a.describe p).toList ++ tail)) ∨
    ∃ f d, x = .staticField f ∧ p.field? f = some d ∧
      (x.heapName? p (.ofProgram p)).map (·.toList) =
        some ((p.className d.owner).toList ++ '.' :: d.name.toList) := by
  cases x with
  | var v => cases hv
  | instanceField o f =>
    obtain ⟨⟨a, ha⟩, -⟩ := hx
    exact Or.inl ⟨o, a, _, rfl, ha, by simp [heapName?, ha, String.toList_append, toString]⟩
  | staticField f =>
    obtain ⟨d, hd⟩ := hx
    exact Or.inr ⟨f, d, rfl, hd, by simp [heapName?, hd, String.toList_append, toString]⟩
  | arraySlots o =>
    obtain ⟨a, ha⟩ := hx
    exact Or.inl ⟨o, a, _, rfl, ha, by simp [heapName?, ha, String.toList_append, toString]⟩

/-- Only the name of an object holds `@<`. -/
theorem describe_append_ne (hp : p.validate = .ok ()) (hn : p.WellNamed) {o : ObjId}
    {a : AbstractObject} {f : FieldId} {d : FieldDecl} (ha : (Heap.ofProgram p).object? o = some a)
    (hf : p.field? f = some d) (tail : List Char) :
    (a.describe p).toList ++ tail ≠ (p.className d.owner).toList ++ '.' :: d.name.toList := by
  intro h
  obtain ⟨-, m, -, hm, -⟩ := Heap.allocated_of_object? hp ha
  have hobject : ['@', '<'] <:+: (a.describe p).toList ++ tail := by
    refine ⟨(p.typeName a.ty).toList, (p.signatureOf m).toList.tail ++
      '#' :: (Nat.toDigits 10 a.site.index ++ tail), ?_⟩
    simp [AbstractObject.toList_describe, Program.signature_eq hm, Program.toList_signatureOf]
  have hname := (hn.fields d (List.mem_of_getElem? (by simpa [Program.field?] using hf))).2
  have hfield : ¬['@', '<'] <:+: '.' :: d.name.toList := by
    rw [List.infix_cons_iff]
    rintro (hpre | hinf)
    · exact absurd (List.cons_prefix_cons.1 hpre).1 (by decide)
    · exact hname hinf
  exact not_infix_append (hn.lacks_className _).2 hfield (by simp) (h ▸ hobject)

/-- Static fields of one name in one class look the same. -/
theorem staticName_eq_iff (hp : p.validate = .ok ()) (hn : p.WellNamed) {f f' : FieldId}
    {d d' : FieldDecl} (hd : p.field? f = some d) (hd' : p.field? f' = some d') :
    (p.className d.owner).toList ++ '.' :: d.name.toList =
        (p.className d'.owner).toList ++ '.' :: d'.name.toList ↔
      d.owner = d'.owner ∧ d.name = d'.name := by
  constructor
  · intro h
    have hdot : ∀ {f d}, p.field? f = some d → '.' ∉ d.name.toList := fun hf =>
      (hn.fields _ (List.mem_of_getElem? (by simpa [Program.field?] using hf))).1
    obtain ⟨hclass, hname⟩ := append_cons_inj_of_last (hdot hd) (hdot hd') h
    have howner : ∀ {f d}, p.field? f = some d → ∃ c, p.class? d.owner = some c := by
      intro f d hf
      obtain ⟨-, -, hfields, -⟩ := Program.validate_eq_ok_iff.1 hp
      have hcheck := hfields (d, f)
        (List.mem_zipIdx_iff_getElem?.2 (by simpa [Program.field?] using hf))
      simp only [Program.checkField, andThen_eq_ok_iff, require_eq_ok_iff,
        decide_eq_true_eq] at hcheck
      exact ⟨_, Array.getElem?_eq_getElem hcheck.2⟩
    obtain ⟨c, hc⟩ := howner hd
    obtain ⟨c', hc'⟩ := howner hd'
    rw [Program.className_eq hc, Program.className_eq hc'] at hclass
    exact ⟨Program.class_eq_of_name hp hc hc' (String.toList_inj.1 hclass),
      String.toList_inj.1 hname⟩
  · rintro ⟨howner, hname⟩
    rw [howner, hname]

/-- The names of heap places tell all of them apart except those that are alike. -/
theorem heapName?_eq_iff (hp : p.validate = .ok ()) (hn : p.WellNamed) (hx : x.In p (.ofProgram p))
    (hy : y.In p (.ofProgram p)) (hxv : x.var? = none) (hyv : y.var? = none) :
    x.heapName? p (.ofProgram p) = y.heapName? p (.ofProgram p) ↔ x.Alike p y := by
  have hinj : Function.Injective String.toList := fun _ _ => String.toList_inj.1
  rw [← (Option.map_injective hinj).eq_iff]
  rcases hx.heapName?_cases hxv with ⟨o, a, tail, hm, ha, hname⟩ | ⟨f, d, rfl, hd, hname⟩
  · rcases hy.heapName?_cases hyv with ⟨o', b, tail', hm', hb, hname'⟩ | ⟨f', d', rfl, hd', hname'⟩
    · rw [hname, hname', alike_iff_of_member? hm hm', Option.some.injEq, Prod.mk.injEq]
      constructor
      · intro h
        exact AbstractObject.describe_append_inj hp hn ha hb (head?_of_member? hm)
          (head?_of_member? hm') h
      · rintro ⟨rfl, rfl⟩
        rw [ha] at hb
        cases hb
        rfl
    · rw [hname, hname', Option.some.injEq]
      refine iff_of_false (describe_append_ne hp hn ha hd' tail) ?_
      cases x <;> simp [Alike, member?] at hm ⊢
  · rcases hy.heapName?_cases hyv with ⟨o', b, tail', hm', hb, hname'⟩ | ⟨f', d', rfl, hd', hname'⟩
    · rw [hname, hname', Option.some.injEq]
      refine iff_of_false (describe_append_ne hp hn hb hd tail').symm ?_
      cases y <;> simp [Alike, member?] at hm' ⊢
    · rw [hname, hname', Option.some.injEq, staticName_eq_iff hp hn hd hd']
      simp [Alike, Program.fieldName, hd, hd']

end Place

end PointsTo
