import PointsTo.Proofs.Facts

/-!
# What a checked program provides

A program that passes `Program.validate` has its methods at the positions of their ids, and whatever a
class lists as its method exists. With a new index and the heap made for it (`Setup.WellFormed`), a use
is indexed exactly if the statement is there (`Setup.WellFormed.mem_storeFields` and its like), every
allocation has its object (`Setup.WellFormed.objectAt?`), and whatever a call resolves to exists.
-/

namespace PointsTo

theorem mapError_eq_ok_iff {ε ε' α : Type} {x : Except ε α} {f : ε → ε'} {a : α} :
    x.mapError f = .ok a ↔ x = .ok a := by
  cases x with
  | ok b =>
    show (Except.ok b : Except ε' α) = .ok a ↔ Except.ok b = .ok a
    rw [Except.ok.injEq, Except.ok.injEq]
  | error e =>
    show (Except.error (f e) : Except ε' α) = .ok a ↔ Except.error e = .ok a
    exact ⟨nofun, nofun⟩

/-- A result that passes a test is there. -/
theorem exists_ok_of_any {ε α : Type} {x : Except ε α} {test : α → Bool}
    (h : x.toOption.any test = true) : ∃ a, x = .ok a ∧ test a = true := by
  cases x with
  | ok a => exact ⟨a, rfl, h⟩
  | error e => cases h

theorem bind_eq_ok_iff {ε α β : Type} {x : Except ε α} {f : α → Except ε β} {b : β} :
    (x >>= f) = .ok b ↔ ∃ a, x = .ok a ∧ f a = .ok b := by
  cases x <;> simp [bind, Except.bind]

theorem bind_eq_error_iff {ε α β : Type} {x : Except ε α} {f : α → Except ε β} {e : ε} :
    (x >>= f) = .error e ↔ x = .error e ∨ ∃ a, x = .ok a ∧ f a = .error e := by
  cases x <;> simp [bind, Except.bind]

/-- Does one statement stand before another in a program? -/
def Site.Before (s t : Site) : Prop := s.method < t.method ∨ s.method = t.method ∧ s.index < t.index

theorem Site.Before.ne {s t : Site} (h : s.Before t) : s ≠ t := by
  rintro rfl
  rcases h with h | ⟨-, h⟩
  · exact Nat.lt_irrefl _ h
  · exact Nat.lt_irrefl _ h

namespace MethodDecl

/-- A method lists exactly the statements of its body. -/
theorem mem_sites_iff {m : MethodDecl} {site : Site} {stmt : Stmt} :
    (site, stmt) ∈ m.sites ↔ site.method = m.id ∧ m.body[site.index]? = some stmt := by
  simp only [sites, List.mem_map, Prod.exists, Prod.mk.injEq]
  constructor
  · rintro ⟨s, i, hs, rfl, rfl⟩
    exact ⟨rfl, List.mem_zipIdx_iff_getElem?.1 hs⟩
  · rintro ⟨hm, hs⟩
    exact ⟨stmt, site.index, List.mem_zipIdx_iff_getElem?.2 hs, by rw [← hm], rfl⟩

end MethodDecl

namespace Program

variable {p : Program}

/-! ## The parts of the check -/

theorem validate_eq_ok_iff :
    p.validate = .ok () ↔
      (∀ x ∈ p.classes.toList.zipIdx, p.checkClass x.1 x.2 = .ok ()) ∧ p.checkAcyclic = .ok () ∧
      (∀ x ∈ p.fields.toList.zipIdx, p.checkField x.1 x.2 = .ok ()) ∧
      (∀ x ∈ p.vars.toList.zipIdx, p.checkVar x.1 x.2 = .ok ()) ∧
      (∀ x ∈ p.methods.toList.zipIdx, p.checkMethod x.1 x.2 = .ok ()) ∧ p.checkRoots = .ok () := by
  simp only [validate, andThen_eq_ok_iff, forM_eq_ok_iff, mapError_eq_ok_iff]

theorem checkMethod_of_validate (hp : p.validate = .ok ()) {m : MethodId} {d : MethodDecl}
    (hm : p.method? m = some d) : p.checkMethod d m = .ok () := by
  obtain ⟨-, -, -, -, h, -⟩ := validate_eq_ok_iff.1 hp
  exact h (d, m) (List.mem_zipIdx_iff_getElem?.2 (by simpa [method?] using hm))

theorem checkField_of_validate (hp : p.validate = .ok ()) {f : FieldId} {d : FieldDecl}
    (hf : p.field? f = some d) : p.checkField d f = .ok () := by
  obtain ⟨-, -, h, -⟩ := validate_eq_ok_iff.1 hp
  exact h (d, f) (List.mem_zipIdx_iff_getElem?.2 (by simpa [field?] using hf))

theorem checkVar_of_validate (hp : p.validate = .ok ()) {v : VarId} {d : VarDecl}
    (hv : p.var? v = some d) : p.checkVar d v = .ok () := by
  obtain ⟨-, -, -, h, -⟩ := validate_eq_ok_iff.1 hp
  exact h (d, v) (List.mem_zipIdx_iff_getElem?.2 (by simpa [var?] using hv))

/-- A method stands at the position of its id. -/
theorem method_id_of_validate (hp : p.validate = .ok ()) {m : MethodId} {d : MethodDecl}
    (hm : p.method? m = some d) : d.id = m := by
  have h := checkMethod_of_validate hp hm
  simp only [checkMethod, andThen_eq_ok_iff, require_eq_ok_iff] at h
  simpa using h.1

/-- The check of what a method mentions passes exactly if all of it is the method's own. -/
theorem checkMentioned_eq_ok_iff {m : MethodDecl} : p.checkMentioned m = .ok () ↔
    ∀ v ∈ mentionedVars m, ∃ e, p.var? v = some e ∧ e.method = m.id := by
  simp only [checkMentioned, andThen_eq_ok_iff, forM_eq_ok_iff, require_eq_ok_iff, decide_eq_true_eq,
    ← forall_and]
  refine forall₂_congr fun v _ => ?_
  by_cases hlt : v < p.vars.size
  · have hvar : p.var? v = some p.vars[v] := Array.getElem?_eq_getElem hlt
    simp [hvar, hlt, require_eq_ok_iff]
  · have hvar : p.var? v = none := Array.getElem?_eq_none (Nat.le_of_not_lt hlt)
    simp [hvar, hlt]

/-- A variable that a method mentions is its own. -/
theorem var_of_mentioned (hp : p.validate = .ok ()) {m : MethodId} {decl : MethodDecl}
    {v : VarId} (hm : p.method? m = some decl) (hv : v ∈ mentionedVars decl) :
    ∃ x, p.var? v = some x ∧ x.method = m := by
  have h := checkMethod_of_validate hp hm
  simp only [checkMethod, andThen_eq_ok_iff, checkMentioned_eq_ok_iff, method_id_of_validate hp hm] at h
  exact h.2.2.2.2.2 v hv

/-- Every variable that a method mentions exists. -/
theorem mentioned_lt_of_validate (hp : p.validate = .ok ()) {m : MethodId} {d : MethodDecl} {v : VarId}
    (hm : p.method? m = some d) (hv : v ∈ mentionedVars d) : v < p.vars.size := by
  obtain ⟨x, hx, -⟩ := var_of_mentioned hp hm hv
  exact (Array.getElem?_eq_some_iff.1 hx).1

/-- What a statement mentions, the method in which it stands mentions. -/
theorem mentioned_of_stmt? {site : Site} {stmt : Stmt} {v : VarId} (hs : p.stmt? site = some stmt)
    (hv : v ∈ stmt.vars) : ∃ d, p.method? site.method = some d ∧ v ∈ mentionedVars d := by
  obtain ⟨d, hd, hb⟩ := Option.bind_eq_some_iff.1 hs
  refine ⟨d, hd, ?_⟩
  simp only [mentionedVars, List.mem_append, List.mem_flatMap]
  exact Or.inr ⟨stmt, List.mem_of_getElem? hb, hv⟩

/-- Every variable that a statement mentions exists. -/
theorem var_lt_of_validate (hp : p.validate = .ok ()) {site : Site} {stmt : Stmt} {v : VarId}
    (hs : p.stmt? site = some stmt) (hv : v ∈ stmt.vars) : v < p.vars.size := by
  obtain ⟨d, hd, hmem⟩ := mentioned_of_stmt? hs hv
  exact mentioned_lt_of_validate hp hd hmem

/-- A variable that a statement mentions belongs to the method in which it stands. -/
theorem var_of_stmt (hp : p.validate = .ok ()) {site : Site} {stmt : Stmt} {v : VarId}
    (hs : p.stmt? site = some stmt) (hv : v ∈ stmt.vars) :
    ∃ x, p.var? v = some x ∧ x.method = site.method := by
  obtain ⟨decl, hd, hmem⟩ := mentioned_of_stmt? hs hv
  exact var_of_mentioned hp hd hmem

theorem checkStmt_of_validate (hp : p.validate = .ok ()) {site : Site} {stmt : Stmt}
    (hs : p.stmt? site = some stmt) :
    ∃ d, p.method? site.method = some d ∧ p.checkStmt d stmt = .ok () := by
  obtain ⟨d, hd, hb⟩ := Option.bind_eq_some_iff.1 hs
  have h := checkMethod_of_validate hp hd
  simp only [checkMethod, andThen_eq_ok_iff, forM_eq_ok_iff] at h
  exact ⟨d, hd, h.2.2.2.2.1 stmt (List.mem_of_getElem? hb)⟩

/-- Whatever a class lists as its method exists. -/
theorem method_of_declared? (hp : p.validate = .ok ()) {c : ClassId} {subsignature : String}
    {m : MethodId} (hm : p.declared? c subsignature = some m) : ∃ d, p.method? m = some d := by
  obtain ⟨d, hd, hl⟩ := Option.bind_eq_some_iff.1 hm
  obtain ⟨h, -⟩ := validate_eq_ok_iff.1 hp
  have hc := h (d, c) (List.mem_zipIdx_iff_getElem?.2 (by simpa [class?] using hd))
  simp only [checkClass, andThen_eq_ok_iff, forM_eq_ok_iff] at hc
  have hlisted := hc.2.2.2 (subsignature, m) (NameMap.get?_eq_some_iff.1 hl)
  simp only [checkListed] at hlisted
  cases hm : p.method? m with
  | none => simp [hm, throw, throwThe, MonadExceptOf.throw] at hlisted
  | some d => exact ⟨d, rfl⟩

/-! ## Targets of calls -/

theorem method_of_resolveStatic (hp : p.validate = .ok ()) {d : Call} {m : MethodId}
    (hm : p.resolveStatic d = .ok m) : ∃ method, p.method? m = some method := by
  unfold resolveStatic at hm
  split at hm
  · rename_i m' hm'
    simp only [pure, Except.pure, Except.ok.injEq] at hm
    exact method_of_declared? hp (hm ▸ hm')
  · simp [throw, throwThe, MonadExceptOf.throw] at hm

theorem method_of_dispatchWithin {subsignature : String} {n : Nat} {c : ClassId} {m : MethodId}
    (hm : p.dispatchWithin subsignature n c = some m) : ∃ method, p.method? m = some method := by
  induction n generalizing c with
  | zero => simp [dispatchWithin] at hm
  | succ n ih =>
    rw [dispatchWithin, Option.or_eq_some_iff] at hm
    rcases hm with hm | ⟨-, hm⟩
    · obtain ⟨-, hm⟩ := Option.filter_eq_some_iff.1 hm
      cases h : p.method? m with
      | none => simp [h] at hm
      | some d => exact ⟨d, rfl⟩
    · obtain ⟨c', -, hm⟩ := Option.bind_eq_some_iff.1 hm
      exact ih hm

theorem method_of_resolve? (hp : p.validate = .ok ()) {ty : TypeRef} {d : Call} {m : MethodId}
    (hm : p.resolve? ty d = some m) : ∃ method, p.method? m = some method := by
  unfold resolve? at hm
  split at hm
  · exact method_of_declared? hp hm
  · exact method_of_dispatchWithin hm
  all_goals
    obtain ⟨c, -, hm⟩ := Option.bind_eq_some_iff.1 hm
    exact method_of_dispatchWithin hm

/-! ## Sites and allocations -/

theorem stmt?_eq_some_iff {site : Site} {stmt : Stmt} :
    p.stmt? site = some stmt ↔
      ∃ d, p.method? site.method = some d ∧ d.body[site.index]? = some stmt :=
  Option.bind_eq_some_iff

/-- The methods list exactly the statements of the program. -/
theorem mem_sites_iff_stmt? (hp : p.validate = .ok ()) {site : Site} {stmt : Stmt} :
    (∃ d ∈ p.methods.toList, (site, stmt) ∈ d.sites) ↔ p.stmt? site = some stmt := by
  rw [stmt?_eq_some_iff]
  constructor
  · rintro ⟨d, hd, hs⟩
    obtain ⟨m, hm⟩ := List.getElem?_of_mem hd
    have hm : p.method? m = some d := by simpa [method?] using hm
    obtain ⟨hid, hb⟩ := MethodDecl.mem_sites_iff.1 hs
    rw [method_id_of_validate hp hm] at hid
    exact ⟨d, hid ▸ hm, hb⟩
  · rintro ⟨d, hd, hb⟩
    refine ⟨d, ?_, MethodDecl.mem_sites_iff.2 ⟨(method_id_of_validate hp hd).symm, hb⟩⟩
    exact List.mem_of_getElem? (by simpa [method?] using hd)

/-- The methods list their statements in program order. -/
theorem pairwise_sites (hp : p.validate = .ok ()) :
    ((p.methods.toList.flatMap (·.sites)).map (·.1)).Pairwise Site.Before := by
  rw [List.pairwise_map, List.pairwise_flatMap]
  constructor
  · intro m _
    rw [MethodDecl.sites, List.pairwise_map, List.pairwise_iff_getElem]
    intro i j hi hj hlt
    simp only [List.getElem_zipIdx, Nat.zero_add]
    exact Or.inr ⟨rfl, hlt⟩
  · rw [List.pairwise_iff_getElem]
    intro i j hi hj hlt x hx y hy
    have hid : ∀ {i} (hi : i < p.methods.toList.length), p.methods.toList[i].id = i := by
      intro i hi
      refine method_id_of_validate hp ?_
      rw [method?, ← Array.getElem?_toList, List.getElem?_eq_getElem hi]
    refine Or.inl ?_
    rw [(MethodDecl.mem_sites_iff.1 hx).1, (MethodDecl.mem_sites_iff.1 hy).1, hid hi, hid hj]
    exact hlt

/-- No two statements have one site. -/
theorem nodup_sites (hp : p.validate = .ok ()) :
    ((p.methods.toList.flatMap (·.sites)).map (·.1)).Nodup :=
  (pairwise_sites hp).imp Site.Before.ne

theorem sitesWhere_eq (p : Program) (test : Stmt → Bool) : p.sitesWhere test =
    ((p.methods.toList.flatMap (·.sites)).filter (test ·.2)).map (·.1) := by
  rw [sitesWhere, List.filter_flatMap, List.map_flatMap]

/-- No site passes a test twice. -/
theorem nodup_sitesWhere (hp : p.validate = .ok ()) (test : Stmt → Bool) :
    (p.sitesWhere test).Nodup := by
  rw [sitesWhere_eq]
  exact (nodup_sites hp).sublist (List.filter_sublist.map _)

/-- The sites that pass a test are those of the statements that pass it. -/
theorem mem_sitesWhere_iff (hp : p.validate = .ok ()) {test : Stmt → Bool} {site : Site} :
    site ∈ p.sitesWhere test ↔ ∃ stmt, p.stmt? site = some stmt ∧ test stmt = true := by
  simp only [sitesWhere, List.mem_flatMap, List.mem_map, List.mem_filter, Prod.exists,
    ← mem_sites_iff_stmt? hp]
  constructor
  · rintro ⟨d, hd, site', stmt, ⟨hs, ht⟩, rfl⟩
    exact ⟨stmt, ⟨d, hd, hs⟩, ht⟩
  · rintro ⟨stmt, ⟨d, hd, hs⟩, ht⟩
    exact ⟨d, hd, site, stmt, ⟨hs, ht⟩, rfl⟩

end Program

namespace Heap

variable {p : Program}

/-- An object of the heap stands at the position of its id, its site is an allocation of its type, and
its container is the class that declares the allocating method. -/
theorem allocated_of_object? (hp : p.validate = .ok ()) {i : ObjId} {a : AbstractObject}
    (ha : (Heap.ofProgram p).object? i = some a) :
    a.id = i ∧ ∃ d lhs, p.method? a.site.method = some d ∧
      d.body[a.site.index]? = some (.new lhs a.ty) ∧ a.container = d.owner := by
  simp only [object?, ofProgram, List.getElem?_toArray, List.getElem?_map, Option.map_eq_some_iff,
    Prod.exists] at ha
  obtain ⟨site, ty, container, id, hz, rfl⟩ := ha
  rw [List.getElem?_zipIdx, Option.map_eq_some_iff] at hz
  obtain ⟨x, hx, hxi⟩ := hz
  simp only [Prod.mk.injEq, Nat.zero_add] at hxi
  obtain ⟨rfl, rfl⟩ := hxi
  refine ⟨rfl, ?_⟩
  obtain ⟨d, hd, hmem⟩ := List.mem_flatMap.1 (List.mem_of_getElem? hx)
  obtain ⟨m, hm⟩ := List.getElem?_of_mem hd
  have hm : p.method? m = some d := by simpa [Program.method?] using hm
  simp only [allocations, List.mem_filterMap, Prod.exists] at hmem
  obtain ⟨site', stmt, hs, he⟩ := hmem
  obtain ⟨hid, hb⟩ := MethodDecl.mem_sites_iff.1 hs
  cases stmt with
  | new lhs ty' =>
    simp only [Option.some.injEq, Prod.mk.injEq] at he
    obtain ⟨rfl, rfl, rfl⟩ := he
    rw [Program.method_id_of_validate hp hm] at hid
    exact ⟨d, lhs, hid ▸ hm, hb, rfl⟩
  | _ => simp at he

theorem object?_ofProgram (hp : p.validate = .ok ()) {i : ObjId} {a : AbstractObject}
    (ha : (Heap.ofProgram p).object? i = some a) :
    a.id = i ∧ ∃ lhs, p.stmt? a.site = some (.new lhs a.ty) := by
  obtain ⟨hid, d, lhs, hd, hb, -⟩ := allocated_of_object? hp ha
  exact ⟨hid, lhs, Program.stmt?_eq_some_iff.2 ⟨d, hd, hb⟩⟩

theorem object?_of_objectAt? (hp : p.validate = .ok ()) {site : Site} {a : AbstractObject}
    (ha : (Heap.ofProgram p).objectAt? site = some a) :
    a.site = site ∧ (Heap.ofProgram p).object? a.id = some a := by
  refine ⟨by simpa using List.find?_some ha, ?_⟩
  have hmem := List.mem_of_find?_eq_some ha
  rw [List.mem_reverse] at hmem
  obtain ⟨i, hi⟩ := List.getElem?_of_mem hmem
  have hi : (Heap.ofProgram p).object? i = some a := by simpa [object?] using hi
  rw [(object?_ofProgram hp hi).1, hi]

/-- Every allocation has an object of its type. -/
theorem objectAt?_ofProgram (hp : p.validate = .ok ()) {site : Site} {lhs : VarId} {ty : TypeRef}
    (hs : p.stmt? site = some (.new lhs ty)) :
    ∃ a, (Heap.ofProgram p).objectAt? site = some a ∧ a.ty = ty := by
  obtain ⟨d, hd, hmem⟩ := (Program.mem_sites_iff_stmt? hp).2 hs
  have hall : (site, ty, d.owner) ∈ p.methods.toList.flatMap allocations := by
    refine List.mem_flatMap.2 ⟨d, hd, ?_⟩
    simp only [allocations, List.mem_filterMap, Prod.exists]
    exact ⟨site, _, hmem, rfl⟩
  obtain ⟨i, hi⟩ := List.getElem?_of_mem hall
  have hsome : ((Heap.ofProgram p).objectAt? site).isSome := by
    rw [objectAt?, List.find?_isSome]
    refine ⟨⟨i, site, ty, d.owner⟩, ?_, by simp⟩
    simp only [ofProgram, List.mem_reverse, List.mem_map, Prod.exists]
    exact ⟨site, ty, d.owner, i, List.mem_zipIdx_iff_getElem?.2 hi, rfl⟩
  obtain ⟨a, ha⟩ := Option.isSome_iff_exists.1 hsome
  refine ⟨a, ha, ?_⟩
  obtain ⟨hsite, hobj⟩ := object?_of_objectAt? hp ha
  obtain ⟨-, lhs', hs'⟩ := object?_ofProgram hp hobj
  rw [hsite, hs] at hs'
  simp only [Option.some.injEq, Stmt.new.injEq] at hs'
  exact hs'.2.symm

end Heap

/-! ## Well-formed setups -/

namespace Program

/-- The program with a new index, a selector and the heap made for it. -/
def setup (p : Program) (selector : Selector) : Setup := ⟨p.indexed, selector, .ofProgram p⟩

end Program

/-- A checked program with a new index and the heap made for it. -/
structure Setup.WellFormed (setup : Setup) : Prop where
  /-- The program passes its check. -/
  valid : setup.program.validate = .ok ()
  /-- The index is new. -/
  index : setup.program.index = setup.program.makeIndex
  heap : setup.heap = .ofProgram setup.program.toProgram

theorem Program.wellFormed_setup {p : Program} (hp : p.validate = .ok ()) {selector : Selector} :
    (p.setup selector).WellFormed := ⟨hp, rfl, rfl⟩

/-! ## A small program -/

namespace Sample

/-- `class A { A f; static void main() { … } A id(A x) { return x; } }` -/
def classA : ClassDecl where
  id := 0
  name := "A"
  superclass := none
  interfaces := []
  isInterface := false
  isAbstract := false
  methods := .ofList [("A id(A)", 1), ("void main()", 0)]

/-- `a = new A; b = a.id(a); a.f = b; c = a.f;` -/
def main : MethodDecl where
  id := 0
  owner := 0
  subsignature := "void main()"
  isStatic := true
  isAbstract := false
  this := none
  params := []
  returns := []
  body := [
    .new 0 (.ofClass 0),
    .call { mode := .virtual, target := ⟨0, "A id(A)"⟩, receiver := some 0, args := [0], result := some 1 },
    .storeField 0 0 1,
    .loadField 2 0 0]

/-- `return x;` -/
def identity : MethodDecl where
  id := 1
  owner := 0
  subsignature := "A id(A)"
  isStatic := false
  isAbstract := false
  this := some 3
  params := [4]
  returns := [4]
  body := []

def program : Program where
  classes := #[classA]
  fields := #[⟨0, "f", 0, false⟩]
  methods := #[main, identity]
  vars := #[⟨0, "a", 0⟩, ⟨1, "b", 0⟩, ⟨2, "c", 0⟩, ⟨3, "this", 1⟩, ⟨4, "x", 1⟩]
  entry := some 0
  rootClass := none

theorem validate_program : program.validate = .ok () := by rfl

/-- `A id(A x) { x = new A; x.id(x); return x; }` -/
def looping : MethodDecl :=
  { identity with
    body := [
      .new 4 (.ofClass 0),
      .call { mode := .virtual, target := ⟨0, "A id(A)"⟩, receiver := some 4, args := [4], result := none }] }

/-- The small program, but its second method calls itself on what it allocates. -/
def recursive : Program := { program with methods := #[main, looping] }

theorem validate_recursive : recursive.validate = .ok () := by rfl

end Sample

namespace Setup.WellFormed

variable {setup : Setup} (h : setup.WellFormed) {v : VarId} {site : Site}

include h

theorem uses_eq : setup.program.uses v =
    if v < setup.program.vars.size then setup.program.usesOf v else .none := by
  rw [IndexedProgram.uses, h.index, Program.makeIndex]
  split
  · rename_i hv
    simp [List.getElem?_range hv]
  · rename_i hv
    have hnone : (List.range setup.program.vars.size)[v]? = none :=
      List.getElem?_eq_none (by simpa using hv)
    simp [hnone]

/-- A statement is among the indexed uses of a variable if it is among the uses and the variable
exists. -/
theorem mem_uses_iff {list : VarUses → List Site} {P : Prop} (hnone : list .none = [])
    (hlist : site ∈ list (setup.program.usesOf v) ↔ P) (hv : P → v < setup.program.vars.size) :
    site ∈ list (setup.program.uses v) ↔ P := by
  rw [h.uses_eq]
  split
  · exact hlist
  · rename_i hlt
    rw [hnone]
    exact ⟨fun hmem => absurd hmem List.not_mem_nil, fun hP => absurd (hv hP) hlt⟩

theorem mem_storeFields :
    site ∈ (setup.program.uses v).storeFields ↔
      ∃ f rhs, setup.program.stmt? site = some (.storeField v f rhs) := by
  refine h.mem_uses_iff rfl ?_ fun ⟨f, rhs, hs⟩ =>
    Program.var_lt_of_validate h.valid hs (by simp [Stmt.vars])
  simp only [Program.usesOf, Program.mem_sitesWhere_iff h.valid]
  constructor
  · rintro ⟨stmt, hs, ht⟩
    cases stmt with
    | storeField base f rhs => exact ⟨f, rhs, by simpa [of_decide_eq_true ht] using hs⟩
    | _ => simp at ht
  · rintro ⟨f, rhs, hs⟩
    exact ⟨_, hs, by simp⟩

theorem mem_loadFields :
    site ∈ (setup.program.uses v).loadFields ↔
      ∃ lhs f, setup.program.stmt? site = some (.loadField lhs v f) := by
  refine h.mem_uses_iff rfl ?_ fun ⟨lhs, f, hs⟩ =>
    Program.var_lt_of_validate h.valid hs (by simp [Stmt.vars])
  simp only [Program.usesOf, Program.mem_sitesWhere_iff h.valid]
  constructor
  · rintro ⟨stmt, hs, ht⟩
    cases stmt with
    | loadField lhs base f => exact ⟨lhs, f, by simpa [of_decide_eq_true ht] using hs⟩
    | _ => simp at ht
  · rintro ⟨lhs, f, hs⟩
    exact ⟨_, hs, by simp⟩

theorem mem_storeArrays :
    site ∈ (setup.program.uses v).storeArrays ↔
      ∃ rhs, setup.program.stmt? site = some (.storeArray v rhs) := by
  refine h.mem_uses_iff rfl ?_ fun ⟨rhs, hs⟩ =>
    Program.var_lt_of_validate h.valid hs (by simp [Stmt.vars])
  simp only [Program.usesOf, Program.mem_sitesWhere_iff h.valid]
  constructor
  · rintro ⟨stmt, hs, ht⟩
    cases stmt with
    | storeArray base rhs => exact ⟨rhs, by simpa [of_decide_eq_true ht] using hs⟩
    | _ => simp at ht
  · rintro ⟨rhs, hs⟩
    exact ⟨_, hs, by simp⟩

theorem mem_loadArrays :
    site ∈ (setup.program.uses v).loadArrays ↔
      ∃ lhs, setup.program.stmt? site = some (.loadArray lhs v) := by
  refine h.mem_uses_iff rfl ?_ fun ⟨lhs, hs⟩ =>
    Program.var_lt_of_validate h.valid hs (by simp [Stmt.vars])
  simp only [Program.usesOf, Program.mem_sitesWhere_iff h.valid]
  constructor
  · rintro ⟨stmt, hs, ht⟩
    cases stmt with
    | loadArray lhs base => exact ⟨lhs, by simpa [of_decide_eq_true ht] using hs⟩
    | _ => simp at ht
  · rintro ⟨lhs, hs⟩
    exact ⟨_, hs, by simp⟩

theorem mem_calls :
    site ∈ (setup.program.uses v).calls ↔
      ∃ d, setup.program.stmt? site = some (.call d) ∧ d.isStatic = false ∧ d.receiver = some v := by
  refine h.mem_uses_iff rfl ?_ fun ⟨d, hs, _, hr⟩ =>
    Program.var_lt_of_validate h.valid hs (by simp [Stmt.vars, Call.vars, hr])
  simp only [Program.usesOf, Program.mem_sitesWhere_iff h.valid]
  constructor
  · rintro ⟨stmt, hs, ht⟩
    cases stmt with
    | call d => exact ⟨d, hs, by simpa using ht⟩
    | _ => simp at ht
  · rintro ⟨d, hs, hd, hr⟩
    exact ⟨_, hs, by simp [hd, hr]⟩

end Setup.WellFormed

end PointsTo
