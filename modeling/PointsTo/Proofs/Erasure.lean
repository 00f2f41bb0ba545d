import PointsTo.Proofs.Failures
import PointsTo.Proofs.Grouping

/-!
# What is left when contexts are erased

Behind one place stand many pointers: a variable in every context of its method, a field of an object under
every heap context. What the place points to is put together from the sets of all of them, and in each set
the heap contexts are dropped as well. Nothing gets lost and nothing is made up on the way into the tables that
are asked in the end (`pointsTo_exact`), whatever state the solver was left in: a run that has stopped halfway
or has failed is read like one that has come to its end.
-/

namespace PointsTo

namespace Arena

variable {a : Arena} {q : Pointer}

theorem place?_eq_var_iff {v : VarId} : a.place? q = some (.var v) ↔ ∃ c, q = .var c v := by
  cases q <;> simp [place?]

theorem place?_eq_instanceField_iff {o : ObjId} {f : FieldId} :
    a.place? q = some (.instanceField o f) ↔
      ∃ k h, a.objects.get? k = some ⟨h, o⟩ ∧ q = .instanceField k f := by
  cases q with
  | instanceField k f' =>
    simp only [place?, Option.map_eq_some_iff, Place.instanceField.injEq, Pointer.instanceField.injEq]
    constructor
    · rintro ⟨r, hr, rfl, rfl⟩
      exact ⟨k, r.heapContext, hr, rfl, rfl⟩
    · rintro ⟨k, h, hr, rfl, rfl⟩
      exact ⟨_, hr, rfl, rfl⟩
  | var | staticField | arraySlots => simp [place?]

theorem place?_eq_staticField_iff {f : FieldId} :
    a.place? q = some (.staticField f) ↔ q = .staticField f := by
  cases q <;> simp [place?]

theorem place?_eq_arraySlots_iff {o : ObjId} :
    a.place? q = some (.arraySlots o) ↔ ∃ k h, a.objects.get? k = some ⟨h, o⟩ ∧ q = .arraySlots k := by
  cases q with
  | arraySlots k =>
    simp only [place?, Option.map_eq_some_iff, Place.arraySlots.injEq, Pointer.arraySlots.injEq]
    constructor
    · rintro ⟨r, hr, rfl⟩
      exact ⟨k, r.heapContext, hr, rfl⟩
    · rintro ⟨k, h, hr, rfl⟩
      exact ⟨_, hr, rfl⟩
  | var | instanceField | staticField => simp [place?]

end Arena

namespace Solution

variable {s : Solution} {q : Pointer} {r : CSObj} {v w : VarId} {o b : ObjId} {f : FieldId}

/-- What a pointer is said to point to is what its set holds. -/
theorem mem_objectsAt_iff : r ∈ s.objectsAt q ↔ s.HeldAt q r := by
  simp only [objectsAt, Arena.objectsIn, Arena.pointsToOf, List.mem_filterMap, IdSet.mem_toList]
  constructor
  · rintro ⟨j, hj, hr⟩
    cases hq : s.arena.pointers.find? q with
    | none =>
      rw [hq] at hj
      exact absurd hj IdSet.not_mem_empty
    | some i =>
      rw [hq] at hj
      exact ⟨i, j, Interner.find?_eq_some_iff.1 hq, hj, hr⟩
  · rintro ⟨i, j, hi, hj, hr⟩
    refine ⟨j, ?_, hr⟩
    rw [Interner.find?_eq_some_iff.2 hi]
    exact hj

theorem mem_varPointsTo_iff : o ∈ s.varPointsTo v ↔ ∃ c h, s.HeldAt (.var c v) ⟨h, o⟩ := by
  simp only [varPointsTo, mem_pointsTo_iff_heldAt, Arena.place?_eq_var_iff]
  constructor
  · rintro ⟨_, h, ⟨c, rfl⟩, hheld⟩
    exact ⟨c, h, hheld⟩
  · rintro ⟨c, h, hheld⟩
    exact ⟨_, h, ⟨c, rfl⟩, hheld⟩

theorem mem_fieldPointsTo_iff : o ∈ s.fieldPointsTo b f ↔
    ∃ k g h, s.arena.objects.get? k = some ⟨g, b⟩ ∧ s.HeldAt (.instanceField k f) ⟨h, o⟩ := by
  simp only [fieldPointsTo, mem_pointsTo_iff_heldAt, Arena.place?_eq_instanceField_iff]
  constructor
  · rintro ⟨_, h, ⟨k, g, hk, rfl⟩, hheld⟩
    exact ⟨k, g, h, hk, hheld⟩
  · rintro ⟨k, g, h, hk, hheld⟩
    exact ⟨_, h, ⟨k, g, hk, rfl⟩, hheld⟩

theorem mem_staticPointsTo_iff : o ∈ s.staticPointsTo f ↔ ∃ h, s.HeldAt (.staticField f) ⟨h, o⟩ := by
  simp [staticPointsTo, mem_pointsTo_iff_heldAt, Arena.place?_eq_staticField_iff]

theorem mem_arrayPointsTo_iff : o ∈ s.arrayPointsTo b ↔
    ∃ k g h, s.arena.objects.get? k = some ⟨g, b⟩ ∧ s.HeldAt (.arraySlots k) ⟨h, o⟩ := by
  simp only [arrayPointsTo, mem_pointsTo_iff_heldAt, Arena.place?_eq_arraySlots_iff]
  constructor
  · rintro ⟨_, h, ⟨k, g, hk, rfl⟩, hheld⟩
    exact ⟨k, g, h, hk, hheld⟩
  · rintro ⟨k, g, h, hk, hheld⟩
    exact ⟨_, h, ⟨k, g, hk, rfl⟩, hheld⟩

theorem mayAlias_iff : s.mayAlias v w = true ↔ ∃ o, o ∈ s.varPointsTo v ∧ o ∈ s.varPointsTo w := by
  simp only [mayAlias, IdSet.meets_iff]

theorem mayAlias_comm (s : Solution) (v w : VarId) : s.mayAlias v w = s.mayAlias w v := by
  rw [Bool.eq_iff_iff, mayAlias_iff, mayAlias_iff]
  simp only [and_comm]

/-- Variables that hold one object under one heap context, in whatever contexts of their own. -/
theorem mayAlias_of_heldAt {c c' : ContextId} (hv : s.HeldAt (.var c v) r)
    (hw : s.HeldAt (.var c' w) r) : s.mayAlias v w = true := by
  have hv' : r.object ∈ s.varPointsTo v := mem_varPointsTo_iff.2 ⟨c, r.heapContext, hv⟩
  have hw' : r.object ∈ s.varPointsTo w := mem_varPointsTo_iff.2 ⟨c', r.heapContext, hw⟩
  exact mayAlias_iff.2 ⟨r.object, hv', hw'⟩

end Solution

/-- The tables list exactly the objects that pointers hold, and in strictly increasing order: a variable in any
context, a field or the slots of an object under any heap context, a static field; each time under any heap
context of what is held. -/
structure PlaceTables.Exact (t : PlaceTables) (s : Solution) : Prop where
  sorted : ∀ place, (t.objectsAt place).Pairwise (· < ·)
  var : ∀ v o, o ∈ t.varObjects v ↔ ∃ c h, s.HeldAt (.var c v) ⟨h, o⟩
  field : ∀ b f o, o ∈ t.fieldObjects b f ↔
    ∃ k g h, s.arena.objects.get? k = some ⟨g, b⟩ ∧ s.HeldAt (.instanceField k f) ⟨h, o⟩
  static : ∀ f o, o ∈ t.staticObjects f ↔ ∃ h, s.HeldAt (.staticField f) ⟨h, o⟩
  array : ∀ b o, o ∈ t.arrayObjects b ↔
    ∃ k g h, s.arena.objects.get? k = some ⟨g, b⟩ ∧ s.HeldAt (.arraySlots k) ⟨h, o⟩
  /-- Variables may alias exactly if they share an object. -/
  mayAlias_iff : ∀ v w, t.mayAlias v w = true ↔ ∃ o, o ∈ t.varObjects v ∧ o ∈ t.varObjects w
  mayAlias_comm : ∀ v w, t.mayAlias v w = t.mayAlias w v
  /-- They do if they hold one object under one heap context, in whatever contexts of their own. -/
  mayAlias_of_held : ∀ v w c c' r, s.HeldAt (.var c v) r → s.HeldAt (.var c' w) r →
    t.mayAlias v w = true
  /-- The tables are what places point to and nothing else. -/
  pointsTo_eq : ∀ place, t.objectsAt place = (s.pointsTo place).toList
  places : ∀ place, (t.get? place).isSome = true ↔ place ∈ s.places
  mayAlias_eq : ∀ v w, t.mayAlias v w = s.mayAlias v w

namespace Solution

variable {s : Solution} {order : HandOut} {t : PlaceTables}

theorem exact_tables (h : s.tables order = .ok t) : t.Exact s := by
  have hmem : ∀ place o, o ∈ t.objectsAt place ↔ o ∈ s.pointsTo place := fun _ _ =>
    mem_objectsAt_tables_iff h
  have halias : ∀ v w, t.mayAlias v w = true ↔ ∃ o, o ∈ t.varObjects v ∧ o ∈ t.varObjects w := fun v w =>
    PlaceTables.mayAlias_iff (sorted_objectsAt_tables h (.var w))
  have hsame : ∀ v w, t.mayAlias v w = s.mayAlias v w := by
    intro v w
    rw [Bool.eq_iff_iff, halias, mayAlias_iff]
    exact exists_congr fun o => and_congr (hmem (.var v) o) (hmem (.var w) o)
  exact {
    sorted := sorted_objectsAt_tables h
    var := fun v o => (hmem (.var v) o).trans mem_varPointsTo_iff
    field := fun b f o => (hmem (.instanceField b f) o).trans mem_fieldPointsTo_iff
    static := fun f o => (hmem (.staticField f) o).trans mem_staticPointsTo_iff
    array := fun b o => (hmem (.arraySlots b) o).trans mem_arrayPointsTo_iff
    mayAlias_iff := halias
    mayAlias_comm := fun v w => by rw [hsame, hsame, mayAlias_comm]
    mayAlias_of_held := fun v w c c' r hv hw => (hsame v w).trans (mayAlias_of_heldAt hv hw)
    pointsTo_eq := objectsAt_tables h
    places := fun _ => isSome_get?_tables_iff h
    mayAlias_eq := hsame }

/-- Tables that are made are exact, in whatever order groups were handed out. They are made for every analysis
that ends well, and from the state of a solver after any requests, answered or not, as no look-up goes wrong.
What is held is what is shown under contexts. -/
theorem pointsTo_exact (order : HandOut) :
    (∀ (s : Solution) t, s.tables order = .ok t → t.Exact s) ∧
    (∀ c custom p s, analyze c custom (Program.indexed p) = .ok s → ∃ t, s.tables order = .ok t) ∧
    (∀ p, Program.validate p = .ok () → ∀ selector worklistOrder rs selectorName heap, ∃ t,
      tables ⟨selectorName, heap, (Solver.serve (p.setup selector) worklistOrder rs).state⟩ order = .ok t) ∧
    ∀ (s : Solution) q r, r ∈ s.objectsAt q ↔ s.HeldAt q r := by
  refine ⟨fun s t => exact_tables, ?_, ?_, fun s q r => mem_objectsAt_iff⟩
  · intro c custom p s h
    obtain ⟨hp, -, entries, -, hsolve⟩ := solve_of_analyze h
    have hset : (p.setup (custom.getD c.selector)).WellFormed := Program.wellFormed_setup hp
    obtain ⟨hsound, -, -⟩ := Solver.outcome_of_solve hset hsolve
    exact exists_tables hsound.wellFormed order
  · intro p hp selector worklistOrder rs selectorName heap
    have hset : (p.setup selector).WellFormed := Program.wellFormed_setup hp
    have hsound := (Solver.accounts_serve hset worklistOrder rs).sound
    exact exists_tables hsound.wellFormed order

end Solution

namespace Sample

/-- `class A { B f; static A make(B p) { r = new A; r.f = p; return r; } static void main() { … } }` with
`b = new B; d = new B; x = A.make(b); y = A.make(d);` in `main`, and `class B` -/
def making : Program where
  classes := #[{ ClassDecl.plain 0 "A" with methods := .ofList [("A make(B)", 0), ("void main()", 1)] },
    ClassDecl.plain 1 "B"]
  fields := #[⟨0, "f", 0, false⟩]
  methods := #[
    { main with id := 0, subsignature := "A make(B)", params := [0], returns := [1],
                body := [.new 1 (.ofClass 0), .storeField 1 0 0] },
    { main with id := 1, body := [
        .new 2 (.ofClass 1),
        .new 3 (.ofClass 1),
        .call { mode := .static, target := ⟨0, "A make(B)"⟩, receiver := none, args := [2], result := some 4 },
        .call { mode := .static, target := ⟨0, "A make(B)"⟩, receiver := none, args := [3],
                result := some 5 }] }]
  vars := #[⟨0, "p", 0⟩, ⟨1, "r", 0⟩, ⟨2, "b", 1⟩, ⟨3, "d", 1⟩, ⟨4, "x", 1⟩, ⟨5, "y", 1⟩]
  entry := some 1
  rootClass := none

/-- What a session on that program finds under call sites. -/
def made : Solution where
  selectorName := Selector.name (.callSite 1 1)
  heap := .ofProgram making
  state := (Solver.serve (making.setup (.callSite 1 1)) .fifo [.seed [1], .run 99]).state

/-- The last is handed out first. -/
def lastFirst {α : Type} : Listing α := ⟨List.reverse, List.reverse_perm⟩

theorem validate_making : making.validate = .ok () := by rfl

end Sample

/-- Under call sites the two calls make objects of their own, `⟨1, 0⟩` and `⟨2, 0⟩`. They are one object
without contexts, which `x` and `y` share, and whose field holds what is stored into either of them. -/
theorem pointsTo_exact_making : ∃ t,
    Sample.made.tables ⟨Sample.lastFirst, fun _ => Sample.lastFirst⟩ = .ok t ∧ t.Exact Sample.made ∧
      Sample.made.objectsAt (.var 0 4) = [⟨1, 0⟩] ∧ Sample.made.objectsAt (.var 0 5) = [⟨2, 0⟩] ∧
      t.varObjects 4 = [0] ∧ t.varObjects 5 = [0] ∧ t.fieldObjects 0 0 = [1, 2] ∧
      t.mayAlias 4 5 = true ∧ t.mayAlias 2 3 = false := by
  obtain ⟨hexact, -, hmade, -⟩ := Solution.pointsTo_exact ⟨Sample.lastFirst, fun _ => Sample.lastFirst⟩
  obtain ⟨t, ht⟩ := hmade Sample.making Sample.validate_making (.callSite 1 1) .fifo [.seed [1], .run 99]
    (Selector.name (.callSite 1 1)) (.ofProgram Sample.making)
  have ht' := hexact Sample.made t ht
  have hlists : (Sample.made.pointsTo (.var 4)).toList = [0] ∧ (Sample.made.pointsTo (.var 5)).toList = [0] ∧
      (Sample.made.pointsTo (.instanceField 0 0)).toList = [1, 2] := by
    decide +kernel
  simp only [← ht'.pointsTo_eq] at hlists
  obtain ⟨hx, hy, hfield⟩ := hlists
  have halias : Sample.made.mayAlias 4 5 = true ∧ Sample.made.mayAlias 2 3 = false := by decide +kernel
  simp only [← ht'.mayAlias_eq] at halias
  exact ⟨t, ht, ht', by decide +kernel, by decide +kernel, hx, hy, hfield, halias⟩

end PointsTo
