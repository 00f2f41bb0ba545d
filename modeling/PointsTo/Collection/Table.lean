/-!
# Tables

A `Table K V` is a finite map from keys to values: at most one value stands under a key, which belongs to
the type, and nothing depends on the order of the entries. `get?_set` says what a change does to the
look-ups, `mem_entries_iff` that the look-ups find just what was entered.
-/

namespace PointsTo

/-- A finite map from `K` to `V`. -/
structure Table (K V : Type) where
  entries : List (K × V)
  /-- No key has two entries. -/
  nodup : (entries.map (·.1)).Nodup
deriving DecidableEq

namespace Table

variable {K V : Type}

/-- The table without entries. -/
def empty : Table K V := ⟨[], .nil⟩

instance : EmptyCollection (Table K V) := ⟨empty⟩

instance : Inhabited (Table K V) := ⟨empty⟩

variable [DecidableEq K]

/-- What stands under `k`. -/
def get? (t : Table K V) (k : K) : Option V := t.entries.lookup k

/-- Does anything stand under `k`? -/
def contains (t : Table K V) (k : K) : Bool := (t.get? k).isSome

/-- The list under `k`, where nothing means that the list is empty. -/
def listAt {V : Type} (t : Table K (List V)) (k : K) : List V := (t.get? k).getD []

/-- An entry is what a look-up of its key finds. -/
theorem mem_entries_iff {t : Table K V} {k : K} {v : V} : (k, v) ∈ t.entries ↔ t.get? k = some v := by
  obtain ⟨es, h⟩ := t
  show (k, v) ∈ es ↔ es.lookup k = some v
  induction es with
  | nil => simp
  | cons e es ih =>
    obtain ⟨a, b⟩ := e
    obtain ⟨hnew, hes⟩ := List.nodup_cons.1 h
    rw [List.mem_cons, List.lookup_cons]
    by_cases hk : k = a
    · subst hk
      have hnot : (k, v) ∉ es := fun hmem => hnew (List.mem_map_of_mem (f := (·.1)) hmem)
      simp [hnot, eq_comm]
    · have hne : (k == a) = false := beq_eq_false_iff_ne.2 hk
      simp only [hne, Prod.mk.injEq, hk, false_and, false_or]
      exact ih hes

/-- Entries may be looked up in any order. -/
theorem lookup_of_perm (t : Table K V) {es : List (K × V)} (h : es.Perm t.entries) (k : K) :
    es.lookup k = t.get? k := by
  have hnodup : (es.map (·.1)).Nodup := (h.map _).nodup_iff.2 t.nodup
  apply Option.ext
  intro v
  have hlookup : (k, v) ∈ es ↔ es.lookup k = some v := @mem_entries_iff K V _ ⟨es, hnodup⟩ k v
  rw [← hlookup, h.mem_iff, mem_entries_iff]

/-- The entries of other keys than `k`. -/
def others (t : Table K V) (k : K) : List (K × V) :=
  if t.contains k then t.entries.filter (·.1 ≠ k) else t.entries

theorem others_eq (t : Table K V) (k : K) : t.others k = t.entries.filter (·.1 ≠ k) := by
  rw [others]
  split
  · rfl
  · rename_i h
    have hne : ∀ e ∈ t.entries, e.1 ≠ k := by
      rintro ⟨_, v⟩ he rfl
      exact h (by rw [contains, mem_entries_iff.1 he]; rfl)
    exact (List.filter_eq_self.2 fun e he => by simpa using hne e he).symm

/-- The table with `v` under `k`, whatever was under `k` before. -/
def set (t : Table K V) (k : K) (v : V) : Table K V where
  entries := (k, v) :: t.others k
  nodup := by
    rw [others_eq]
    refine List.nodup_cons.2 ⟨fun h => ?_, t.nodup.sublist (List.filter_sublist.map _)⟩
    obtain ⟨e, he, hek⟩ := List.mem_map.1 h
    simpa [hek] using (List.mem_filter.1 he).2

/-- The table with `v` at the end of the list under `k`. -/
def append {V : Type} (t : Table K (List V)) (k : K) (v : V) : Table K (List V) :=
  t.set k (t.listAt k ++ [v])

@[simp] theorem get?_empty {k : K} : (∅ : Table K V).get? k = none := rfl

theorem get?_set {t : Table K V} {k j : K} {v : V} :
    (t.set k v).get? j = if j = k then some v else t.get? j := by
  apply Option.ext
  intro w
  rw [← mem_entries_iff]
  by_cases hj : j = k
  · subst hj
    simp [set, others_eq, eq_comm]
  · simp [set, others_eq, hj, mem_entries_iff]

theorem contains_set {t : Table K V} {k j : K} {v : V} :
    (t.set k v).contains j = (j = k || t.contains j) := by
  rw [contains, get?_set]
  by_cases h : j = k <;> simp [h, contains]

theorem listAt_set {V : Type} {t : Table K (List V)} {k j : K} {vs : List V} :
    (t.set k vs).listAt j = if j = k then vs else t.listAt j := by
  rw [listAt, get?_set]
  split
  · rfl
  · rfl

theorem listAt_append {V : Type} {t : Table K (List V)} {k j : K} {v : V} :
    (t.append k v).listAt j = if j = k then t.listAt k ++ [v] else t.listAt j := listAt_set

end Table

end PointsTo
