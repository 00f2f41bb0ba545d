import Mathlib.Data.List.Nodup
import PointsTo.Proofs.Projection
import PointsTo.Proofs.StrictTables

/-!
# Grouping pointers by place

`Solution.pointsTo` goes through all pointers for each place it is asked for. A machine goes through them once:
the objects of a pointer join the group of its place, and a pointer without objects opens no group
(`joinGroup`). In the end the groups are handed out one after the other, each is sorted, and it is entered in
one of four tables by the kind of its place (`PlaceTables.ofGroups`). From then on all questions are answered
from the tables (`Solution.tables`). Neither the groups nor the members of one have an order of their own, so
they are handed out in any order whatever (`HandOut`).

What has been gathered on the way is said by `Gathered`, for the pointers that the machine has gone through. So
the tables hold what `Solution.pointsTo` finds (`objectsAt_tables`), whatever the order was. Their lists are
sorted, and in a sorted list a search that halves it finds whatever is there (`findByHalves_iff`).
-/

namespace PointsTo

/-! ## Orders -/

/-- An order in which the members of something that has none are handed out. -/
structure Listing (α : Type) where
  list : List α → List α
  /-- Everything is handed out once. -/
  perm : ∀ xs, (list xs).Perm xs

/-- The orders in which groups, and the members of each group, are handed out. -/
structure HandOut where
  groups : Listing (Place × List ObjId)
  members : Place → Listing ObjId

/-! ## Groups -/

/-- Abstract objects by place, each once. -/
abbrev Groups := Table Place (List ObjId)

namespace Arena

/-- The place of a pointer, whose base must be there. -/
def placeOf (a : Arena) : Pointer → Except Halt Place
  | .var _ v => pure (.var v)
  | .instanceField base f => do pure (.instanceField (← lookUp a.objects.items base).object f)
  | .staticField f => pure (.staticField f)
  | .arraySlots array => do pure (.arraySlots (← lookUp a.objects.items array).object)

/-- The abstract objects behind ids, all of which must be there. -/
def abstractObjects (a : Arena) (ids : List CSObjId) : Except Halt (List ObjId) :=
  ids.mapM fun i => do pure (← lookUp a.objects.items i).object

/-- The objects of a pointer join the group of its place. -/
def joinGroup (a : Arena) (groups : Groups) : (pointer : Pointer × PointsToSet) → Except Halt Groups
  | (q, objects) =>
    if objects.isEmpty then pure groups
    else do
      let place ← a.placeOf q
      let new ← a.abstractObjects objects.toList
      pure (groups.set place (new.foldl (fun group o => group.insert o) (groups.listAt place)))

/-- The groups of all pointers. -/
def groups (a : Arena) : Except Halt Groups := a.pointerSets.foldlM a.joinGroup ∅

end Arena

/-! ## Tables -/

/-- What places point to, in one table for each kind of place. -/
structure PlaceTables where
  vars : Table VarId (List ObjId) := ∅
  instanceFields : Table (ObjId × FieldId) (List ObjId) := ∅
  staticFields : Table FieldId (List ObjId) := ∅
  arrays : Table ObjId (List ObjId) := ∅

namespace PlaceTables

/-- Enter the objects of a place. -/
def enter (t : PlaceTables) (objects : List ObjId) : Place → PlaceTables
  | .var v => { t with vars := t.vars.set v objects }
  | .instanceField o f => { t with instanceFields := t.instanceFields.set (o, f) objects }
  | .staticField f => { t with staticFields := t.staticFields.set f objects }
  | .arraySlots o => { t with arrays := t.arrays.set o objects }

/-- Enter groups one after the other, each sorted. -/
def ofGroups (members : Place → Listing ObjId) (groups : List (Place × List ObjId)) : PlaceTables :=
  groups.foldl (fun t (place, group) => t.enter (IdSet.sort ((members place).list group)) place) {}

/-- What a variable points to. -/
def varObjects (t : PlaceTables) (v : VarId) : List ObjId := t.vars.listAt v

/-- What a field of an object points to. -/
def fieldObjects (t : PlaceTables) (o : ObjId) (f : FieldId) : List ObjId := t.instanceFields.listAt (o, f)

/-- What a static field points to. -/
def staticObjects (t : PlaceTables) (f : FieldId) : List ObjId := t.staticFields.listAt f

/-- What the slots of an array point to. -/
def arrayObjects (t : PlaceTables) (o : ObjId) : List ObjId := t.arrays.listAt o

/-- What a place points to, from the table of its kind. -/
def objectsAt (t : PlaceTables) : Place → List ObjId
  | .var v => t.varObjects v
  | .instanceField o f => t.fieldObjects o f
  | .staticField f => t.staticObjects f
  | .arraySlots o => t.arrayObjects o

end PlaceTables

/-- Look for a number among the `size` ones of a sorted list that start at position `base`. Each turn looks at
the one in the middle and goes on with one half, until one number is left. -/
def findByHalves (x : Nat) (ys : List Nat) (base size : Nat) : Bool :=
  if 1 < size then
    let half := size / 2
    if ys[base + half]?.any (x < ·) then findByHalves x ys base (size - half)
    else findByHalves x ys (base + half) (size - half)
  else ys[base]? = some x
termination_by size

/-- May two variables point to the same object? -/
def PlaceTables.mayAlias (t : PlaceTables) (v w : VarId) : Bool :=
  (t.varObjects v).any fun o => findByHalves o (t.varObjects w) 0 (t.varObjects w).length

/-- The tables of a solution. -/
def Solution.tables (s : Solution) (order : HandOut) : Except Halt PlaceTables := do
  let groups ← s.arena.groups
  pure (.ofGroups order.members (order.groups.list groups.entries))

/-! ## One pointer -/

section

variable {a : Arena} {q : Pointer} {place : Place} {xs : PointsToSet} {o : ObjId} {new : List ObjId}
  {groups groups' : Groups} {done : List (Pointer × PointsToSet)}

namespace Arena

theorem lookUp_objects_eq_ok_iff {i : CSObjId} {r : CSObj} :
    lookUp a.objects.items i = .ok r ↔ a.objects.get? i = some r := by
  rw [lookUp, Interner.get?]
  cases a.objects.items[i]? with
  | none =>
    constructor
    · intro h
      cases h
    · intro h
      cases h
  | some r' => simp [pure, Except.pure]

theorem placeOf_eq_ok_iff : a.placeOf q = .ok place ↔ a.place? q = some place := by
  cases q with
  | var | staticField => simp [placeOf, place?, pure, Except.pure]
  | instanceField | arraySlots =>
    simp only [placeOf, place?, bind_eq_ok_iff, lookUp_objects_eq_ok_iff, Option.map_eq_some_iff, pure,
      Except.pure, Except.ok.injEq]

theorem abstractObjects_cons_iff {i : CSObjId} {ids : List CSObjId} :
    a.abstractObjects (i :: ids) = .ok new ↔
      ∃ r, a.objects.get? i = some r ∧ ∃ rest, a.abstractObjects ids = .ok rest ∧ r.object :: rest = new := by
  simp [abstractObjects, bind_eq_ok_iff, lookUp_objects_eq_ok_iff, pure, Except.pure]

theorem mem_abstractObjects {ids : List CSObjId} (h : a.abstractObjects ids = .ok new) :
    o ∈ new ↔ ∃ j ∈ ids, ∃ r, a.objects.get? j = some r ∧ r.object = o := by
  induction ids generalizing new with
  | nil =>
    cases h
    simp
  | cons i ids ih =>
    obtain ⟨r, hr, rest, hrest, rfl⟩ := abstractObjects_cons_iff.1 h
    rw [List.mem_cons, ih hrest]
    simp [hr, eq_comm]

theorem exists_abstractObjects {ids : List CSObjId} (h : ∀ j ∈ ids, ∃ r, a.objects.get? j = some r) :
    ∃ new, a.abstractObjects ids = .ok new := by
  induction ids with
  | nil => exact ⟨[], rfl⟩
  | cons i ids ih =>
    obtain ⟨⟨r, hr⟩, hids⟩ := List.forall_mem_cons.1 h
    obtain ⟨rest, hrest⟩ := ih hids
    exact ⟨_, abstractObjects_cons_iff.2 ⟨r, hr, rest, hrest, rfl⟩⟩

/-- All that a pointer can do to the groups. -/
theorem joinGroup_eq_ok_iff : a.joinGroup groups (q, xs) = .ok groups' ↔
    xs.isEmpty = true ∧ groups = groups' ∨
    xs.isEmpty = false ∧ ∃ place, a.place? q = some place ∧ ∃ new, a.abstractObjects xs.toList = .ok new ∧
      groups.set place (new.foldl (fun group o => group.insert o) (groups.listAt place)) = groups' := by
  rw [joinGroup]
  cases xs.isEmpty <;> simp [bind_eq_ok_iff, placeOf_eq_ok_iff, pure, Except.pure]

end Arena

theorem mem_foldl_insert {group : List ObjId} :
    o ∈ new.foldl (fun group o => group.insert o) group ↔ o ∈ group ∨ o ∈ new := by
  induction new generalizing group with
  | nil => simp
  | cons o' new ih =>
    rw [List.foldl_cons, ih, List.mem_insert_iff, List.mem_cons, or_assoc, or_left_comm]

theorem nodup_foldl_insert {group : List ObjId} (h : group.Nodup) :
    (new.foldl (fun group o => group.insert o) group).Nodup := by
  induction new generalizing group with
  | nil => exact h
  | cons o' new ih => exact ih h.insert

/-! ## All pointers -/

/-- What has been gathered from pointers: by place, the objects of all of them, each once, and nothing for a
place all of whose pointers are without objects. -/
structure Gathered (a : Arena) (done : List (Pointer × PointsToSet)) (groups : Groups) : Prop where
  nodup : ∀ place, (groups.listAt place).Nodup
  mem : ∀ place o, o ∈ groups.listAt place ↔ ∃ e ∈ done, a.place? e.1 = some place ∧ o ∈ a.erase e.2
  contains : ∀ place, groups.contains place = true ↔
    ∃ e ∈ done, e.2.isEmpty = false ∧ a.place? e.1 = some place

namespace Gathered

theorem start : Gathered a [] ∅ where
  nodup _ := List.nodup_nil
  mem _ _ := iff_of_false List.not_mem_nil nofun
  contains _ := iff_of_false nofun nofun

theorem join (h : Gathered a done groups) (hjoin : a.joinGroup groups (q, xs) = .ok groups') :
    Gathered a (done ++ [(q, xs)]) groups' := by
  rcases Arena.joinGroup_eq_ok_iff.1 hjoin with ⟨hempty, rfl⟩ | ⟨hne, place, hplace, new, hnew, rfl⟩
  · have hnone : ∀ o, o ∉ a.erase xs := by
      intro o ho
      obtain ⟨j, hj, -⟩ := Arena.mem_erase_iff.1 ho
      exact IdSet.isEmpty_iff.1 hempty j hj
    refine ⟨h.nodup, fun place o => (h.mem place o).trans ?_, fun place => (h.contains place).trans ?_⟩
    · simp [or_and_right, exists_or, hnone]
    · simp [or_and_right, exists_or, hempty]
  · refine ⟨fun place' => ?_, fun place' o => ?_, fun place' => ?_⟩
    · rw [Table.listAt_set]
      split
      · exact nodup_foldl_insert (h.nodup place)
      · exact h.nodup place'
    · rw [Table.listAt_set]
      by_cases heq : place' = place
      · subst heq
        rw [if_pos rfl, mem_foldl_insert, h.mem, (Arena.mem_abstractObjects hnew).trans Arena.mem_erase_iff.symm]
        simp [or_and_right, exists_or, hplace]
      · have hother : ¬place = place' := fun he => heq he.symm
        rw [if_neg heq, h.mem]
        simp [or_and_right, exists_or, hplace, hother]
    · rw [Table.contains_set, Bool.or_eq_true, decide_eq_true_eq, h.contains, or_comm, @eq_comm _ place']
      simp [or_and_right, exists_or, hplace, hne]

theorem foldlM {es : List (Pointer × PointsToSet)} (h : Gathered a done groups)
    (hrun : es.foldlM a.joinGroup groups = .ok groups') : Gathered a (done ++ es) groups' := by
  induction es generalizing done groups with
  | nil =>
    cases hrun
    rwa [List.append_nil]
  | cons e es ih =>
    rw [List.foldlM_cons, bind_eq_ok_iff] at hrun
    obtain ⟨middle, hjoin, hrest⟩ := hrun
    have hall := ih (h.join hjoin) hrest
    rwa [List.append_assoc] at hall

end Gathered

theorem gathered_groups (h : a.groups = .ok groups) : Gathered a a.pointerSets groups :=
  Gathered.start.foldlM h

end

/-- No look-up goes wrong where every id was handed out. -/
theorem exists_joinGroup {s : State} (hw : s.WellFormed) {e : Pointer × PointsToSet}
    (he : e ∈ s.arena.pointerSets) (groups : Groups) :
    ∃ groups', s.arena.joinGroup groups e = .ok groups' := by
  obtain ⟨q, xs⟩ := e
  obtain ⟨i, hi, rfl⟩ := Arena.mem_pointerSets_iff.1 he
  cases hempty : (s.arena.pointsTo i).isEmpty with
  | true => exact ⟨groups, Arena.joinGroup_eq_ok_iff.2 (Or.inl ⟨hempty, rfl⟩)⟩
  | false =>
    obtain ⟨l, hl⟩ := hw.arena.location i (Interner.lt_size_of_get? hi)
    obtain ⟨q', hq', hql⟩ := Arena.location?_eq_some_iff.1 hl
    obtain rfl := Option.some.inj (hi.symm.trans hq')
    obtain ⟨new, hnew⟩ : ∃ new, s.arena.abstractObjects (s.arena.pointsTo i).toList = .ok new := by
      refine Arena.exists_abstractObjects fun j hj => ?_
      obtain ⟨o, ho⟩ := hw.arena.object j (hw.pointsTo i j hj)
      obtain ⟨c, hc, -⟩ := Arena.object?_eq_some_iff.1 ho
      exact ⟨_, hc⟩
    exact ⟨_, Arena.joinGroup_eq_ok_iff.2
      (Or.inr ⟨hempty, l.place, Arena.place?_of_locate? hql, new, hnew, rfl⟩)⟩

theorem exists_groups {s : State} (hw : s.WellFormed) : ∃ groups, s.arena.groups = .ok groups :=
  exists_foldlM_eq_ok (fun _ he => exists_joinGroup hw he) ∅

/-! ## Tables -/

namespace PlaceTables

variable {t : PlaceTables} {place place' : Place} {members : Place → Listing ObjId}
  {groups : List (Place × List ObjId)}

/-- What has been entered for a place. -/
def get? (t : PlaceTables) : Place → Option (List ObjId)
  | .var v => t.vars.get? v
  | .instanceField o f => t.instanceFields.get? (o, f)
  | .staticField f => t.staticFields.get? f
  | .arraySlots o => t.arrays.get? o

theorem objectsAt_eq (t : PlaceTables) (place : Place) : t.objectsAt place = (t.get? place).getD [] := by
  cases place <;> rfl

theorem get?_enter {objects : List ObjId} :
    (t.enter objects place).get? place' = if place' = place then some objects else t.get? place' := by
  cases place <;> cases place' <;> simp [enter, get?, Table.get?_set]

/-- Each group is found under its place: groups of other places go to other tables or keys. -/
theorem get?_ofGroups (h : (groups.map (·.1)).Nodup) : (ofGroups members groups).get? place =
    (groups.lookup place).map fun group => IdSet.sort ((members place).list group) := by
  have hfold : ∀ t : PlaceTables, (groups.foldl (fun t (place, group) =>
      t.enter (IdSet.sort ((members place).list group)) place) t).get? place =
        ((groups.lookup place).map fun group => IdSet.sort ((members place).list group)).or
          (t.get? place) := by
    induction groups with
    | nil => exact fun t => rfl
    | cons e groups ih =>
      obtain ⟨place', group⟩ := e
      obtain ⟨hnew, hgroups⟩ := List.nodup_cons.1 h
      intro t
      rw [List.foldl_cons, ih hgroups, get?_enter, List.lookup_cons]
      by_cases hplace : place = place'
      · subst hplace
        have hnone : groups.lookup place = none := by
          rw [List.lookup_eq_none_iff]
          intro e he
          have hne : place ≠ e.1 := fun heq => hnew (heq ▸ List.mem_map.2 ⟨e, he, rfl⟩)
          simpa using hne
        simp [hnone]
      · have hne : (place == place') = false := beq_eq_false_iff_ne.2 hplace
        simp [hne, hplace]
  rw [ofGroups, hfold]
  cases place <;> exact Option.or_none

end PlaceTables

namespace Solution

variable {s : Solution} {order : HandOut} {t : PlaceTables} {place : Place}

theorem exists_tables (hw : s.state.WellFormed) (order : HandOut) : ∃ t, s.tables order = .ok t := by
  obtain ⟨groups, hgroups⟩ := exists_groups hw
  exact ⟨_, by rw [tables, arena_eq, hgroups]; rfl⟩

/-- What is entered for a place is its group, in an order of its own and then sorted. -/
theorem exists_group (h : s.tables order = .ok t) : ∃ groups, Gathered s.arena s.arena.pointerSets groups ∧
    ∀ place, t.get? place =
      (groups.get? place).map fun group => IdSet.sort ((order.members place).list group) := by
  simp only [tables, bind_eq_ok_iff, pure, Except.pure, Except.ok.injEq] at h
  obtain ⟨groups, hgroups, rfl⟩ := h
  refine ⟨groups, gathered_groups hgroups, fun place => ?_⟩
  have hperm := order.groups.perm groups.entries
  rw [PlaceTables.get?_ofGroups ((hperm.map _).nodup_iff.2 groups.nodup), groups.lookup_of_perm hperm]

/-- A place has an entry if one of its pointers points to something. -/
theorem isSome_get?_tables_iff (h : s.tables order = .ok t) :
    (t.get? place).isSome = true ↔ place ∈ s.places := by
  obtain ⟨groups, hgathered, hget⟩ := exists_group h
  rw [hget, Option.isSome_map]
  refine (hgathered.contains place).trans ?_
  simp [places, and_assoc]

theorem mem_objectsAt_tables_iff (h : s.tables order = .ok t) {o : ObjId} :
    o ∈ t.objectsAt place ↔ o ∈ s.pointsTo place := by
  obtain ⟨groups, hgathered, hget⟩ := exists_group h
  have hgroup : o ∈ groups.listAt place ↔ o ∈ s.pointsTo place := by
    rw [hgathered.mem, pointsTo, mem_foldl_union_iff]
    simp [and_assoc]
  rw [← hgroup, PlaceTables.objectsAt_eq, hget, Table.listAt]
  cases groups.get? place with
  | none => rfl
  | some group => exact IdSet.mem_sort.trans ((order.members place).perm group).mem_iff

/-- Sorting a group is enough to have its members in strictly increasing order, as it lists none twice. -/
theorem sorted_objectsAt_tables (h : s.tables order = .ok t) (place : Place) :
    (t.objectsAt place).Pairwise (· < ·) := by
  obtain ⟨groups, hgathered, hget⟩ := exists_group h
  have hnodup := hgathered.nodup place
  rw [PlaceTables.objectsAt_eq, hget]
  rw [Table.listAt] at hnodup
  cases hgroup : groups.get? place with
  | none => exact List.Pairwise.nil
  | some group =>
    rw [hgroup] at hnodup
    exact IdSet.sorted_sort_of_nodup (((order.members place).perm group).nodup_iff.2 hnodup)

/-- The tables hold what `pointsTo` finds, in whatever order the groups were handed out. -/
theorem objectsAt_tables (h : s.tables order = .ok t) (place : Place) :
    t.objectsAt place = (s.pointsTo place).toList := by
  have hset : (⟨t.objectsAt place, sorted_objectsAt_tables h place⟩ : IdSet) = s.pointsTo place :=
    IdSet.ext_mem fun _ => mem_objectsAt_tables_iff h
  exact congrArg IdSet.toList hset

end Solution

/-! ## Searching -/

/-- The window of a search never loses the number that is looked for, if the list is sorted. -/
theorem findByHalves_iff {x : Nat} {ys : List Nat} (h : ys.Pairwise (· < ·)) {base size : Nat}
    (hwithin : base + size ≤ ys.length) (hwindow : ∀ i, ys[i]? = some x → base ≤ i ∧ i < base + size) :
    findByHalves x ys base size = true ↔ x ∈ ys := by
  have hlt {i j y z : Nat} (hi : ys[i]? = some y) (hj : ys[j]? = some z) (hij : i < j) : y < z := by
    obtain ⟨hi', rfl⟩ := List.getElem?_eq_some_iff.1 hi
    obtain ⟨hj', rfl⟩ := List.getElem?_eq_some_iff.1 hj
    exact List.pairwise_iff_getElem.1 h i j hi' hj' hij
  fun_induction findByHalves x ys base size with
  | case1 base size hsize half hgreater ih =>
    -- what is looked for is below the number in the middle, and so are its positions
    obtain ⟨y, hy, hxy⟩ := (Option.any_eq_true _ _).1 hgreater
    have hxy := of_decide_eq_true hxy
    refine ih (by omega) fun i hi => ?_
    obtain ⟨hbase, -⟩ := hwindow i hi
    have hhalf : i < base + half := by
      by_contra hle
      rcases Nat.lt_or_eq_of_le (Nat.le_of_not_lt hle) with hlt' | rfl
      · exact absurd (hlt hy hi hlt') (by omega)
      · obtain rfl := Option.some.inj (hi.symm.trans hy)
        exact Nat.lt_irrefl _ hxy
    omega
  | case2 base size hsize half hgreater ih =>
    have hmiddle : base + half < ys.length := by omega
    have hle : ys[base + half] ≤ x := by simpa [List.getElem?_eq_getElem hmiddle] using hgreater
    refine ih (by omega) fun i hi => ?_
    obtain ⟨-, hend⟩ := hwindow i hi
    have hhalf : base + half ≤ i := by
      by_contra hlt'
      have := hlt hi (List.getElem?_eq_getElem hmiddle) (Nat.lt_of_not_le hlt')
      omega
    omega
  | case3 base size hsize =>
    rw [decide_eq_true_eq]
    refine ⟨List.mem_of_getElem?, fun hx => ?_⟩
    obtain ⟨i, hi⟩ := List.getElem?_of_mem hx
    obtain ⟨hbase, hend⟩ := hwindow i hi
    obtain rfl : i = base := by omega
    exact hi

theorem PlaceTables.mayAlias_iff {t : PlaceTables} {v w : VarId}
    (h : (t.varObjects w).Pairwise (· < ·)) :
    t.mayAlias v w = true ↔ ∃ o, o ∈ t.varObjects v ∧ o ∈ t.varObjects w := by
  have hsearch : ∀ o, findByHalves o (t.varObjects w) 0 (t.varObjects w).length = true ↔
      o ∈ t.varObjects w := by
    intro o
    refine findByHalves_iff h (by omega) fun i hi => ?_
    obtain ⟨hi, -⟩ := List.getElem?_eq_some_iff.1 hi
    omega
  simp only [mayAlias, List.any_eq_true, hsearch]

end PointsTo
