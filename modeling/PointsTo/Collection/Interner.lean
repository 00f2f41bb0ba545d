import PointsTo.Collection.Table

/-!
# Interning: a dense id for every value asked for

An `Interner α` hands out the ids `0, 1, 2, …` in the order in which values are first asked for, and
gives back the value of an id. A value has one id for good: asking again returns the old id and
changes nothing (`intern_of_find?`), and no later request changes what an id stands for
(`get?_intern_of_some`). So two values are equal exactly if their ids are.

The values stand in an array by their ids, and the ids in a table by their values. That the one inverts
the other belongs to the type.
-/

namespace PointsTo

/-- Distinct values with ids; the id of a value is its position. -/
structure Interner (α : Type) where
  /-- The values, in the order of their ids. -/
  items : Array α
  /-- The ids, by value. -/
  ids : Table α Nat
  /-- The table holds the position of every value, and nothing else. -/
  inStep : ∀ a i, (a, i) ∈ ids.entries ↔ items[i]? = some a
deriving DecidableEq

namespace Interner

variable {α : Type}

/-- Nothing has an id. -/
def empty : Interner α := ⟨#[], ∅, fun _ _ => iff_of_false List.not_mem_nil nofun⟩

instance : EmptyCollection (Interner α) := ⟨empty⟩

instance : Inhabited (Interner α) := ⟨empty⟩

/-- How many values have an id. -/
def size (t : Interner α) : Nat := t.items.size

/-- The value of an id that was handed out. -/
def get? (t : Interner α) (id : Nat) : Option α := t.items[id]?

/-- All values, in the order of their ids. -/
def toList (t : Interner α) : List α := t.items.toList

section

variable [DecidableEq α]

/-- The id of `a`, if it has one. -/
def find? (t : Interner α) (a : α) : Option Nat := t.ids.get? a

/-! ## The two directions of the table -/

/-- Looking up by value and by id are inverse. -/
theorem find?_eq_some_iff {t : Interner α} {a : α} {i : Nat} :
    t.find? a = some i ↔ t.get? i = some a :=
  Table.mem_entries_iff.symm.trans (t.inStep a i)

theorem find?_eq_none_iff {t : Interner α} {a : α} : t.find? a = none ↔ ∀ i, t.get? i ≠ some a := by
  rw [Option.eq_none_iff_forall_ne_some]
  exact forall_congr' fun i => not_congr find?_eq_some_iff

/-- The id of `a`, a new one if `a` has none yet, and the tables that know it. -/
def intern (t : Interner α) (a : α) : Nat × Interner α :=
  match h : t.find? a with
  | some i => (i, t)
  | none => (t.items.size, {
      items := t.items.push a
      ids := t.ids.set a t.items.size
      inStep := by
        intro b i
        rw [Table.mem_entries_iff, Table.get?_set, Array.getElem?_push]
        have hnew := find?_eq_none_iff.1 h
        have hold := find?_eq_some_iff (t := t) (a := b) (i := i)
        rw [find?, get?] at hold
        by_cases hb : b = a
        · subst hb
          by_cases hi : i = t.items.size
          · simp [hi]
          · rw [if_pos rfl, if_neg hi]
            exact iff_of_false (fun he => hi (Option.some.inj he).symm) (hnew i)
        · rw [if_neg hb, hold]
          by_cases hi : i = t.items.size
          · simp [hi, Ne.symm hb]
          · rw [if_neg hi] })

/-- Asking for a value that has an id changes nothing. -/
theorem intern_of_find? {t : Interner α} {a : α} {i : Nat} (h : t.find? a = some i) :
    t.intern a = (i, t) := by
  unfold intern
  split
  · rename_i j hj
    rw [hj] at h
    cases h
    rfl
  · rename_i hn
    rw [hn] at h
    cases h

theorem items_intern_of_find?_eq_none {t : Interner α} {a : α} (h : t.find? a = none) :
    (t.intern a).1 = t.items.size ∧ (t.intern a).2.items = t.items.push a := by
  unfold intern
  split
  · rename_i j hj
    rw [hj] at h
    cases h
  · exact ⟨rfl, rfl⟩

/-- The id handed out stands for the value asked for. -/
theorem get?_intern_self {t : Interner α} {a : α} :
    (t.intern a).2.get? (t.intern a).1 = some a := by
  cases h : t.find? a with
  | some i =>
    rw [intern_of_find? h]
    exact find?_eq_some_iff.1 h
  | none =>
    have hi := items_intern_of_find?_eq_none h
    simp [get?, hi.1, hi.2]

/-- No request changes what an older id stands for. -/
theorem get?_intern_of_some {t : Interner α} {a b : α} {i : Nat} (h : t.get? i = some b) :
    (t.intern a).2.get? i = some b := by
  cases hf : t.find? a with
  | some j =>
    rw [intern_of_find? hf]
    exact h
  | none =>
    have hi := items_intern_of_find?_eq_none hf
    have hlt : i < t.items.size := (Array.getElem?_eq_some_iff.1 h).1
    rw [get?, hi.2, Array.getElem?_push, if_neg (by omega)]
    exact h

end

end Interner

end PointsTo
