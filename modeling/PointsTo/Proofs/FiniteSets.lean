import Mathlib.Data.Finset.Card
import Mathlib.Data.Finset.Dedup
import Mathlib.Data.Finset.Lattice.Basic
import PointsTo.Collection.IdSet

/-!
# Sets of ids are finite sets

`IdSet.toFinset` forgets how a set is listed. A set that is obtained in some way (`SetTerm`), by the
operations on lists in order, is the finite set that the same operations on finite sets give
(`toFinset_set`), and the answers of the operations are those of the finite sets
(`SetTerm.operations_exact`).
-/

namespace PointsTo

namespace IdSet

/-- The members of a set. -/
def toFinset (s : IdSet) : Finset Nat := s.toList.toFinset

variable {s t : IdSet} {x : Nat} {xs : List Nat}

@[simp] theorem mem_toFinset : x ∈ s.toFinset ↔ x ∈ s := List.mem_toFinset

/-- Nothing but the members matters. -/
theorem toFinset_inj : s.toFinset = t.toFinset ↔ s = t := by
  refine ⟨fun h => ext_mem fun x => ?_, congrArg toFinset⟩
  rw [← mem_toFinset, h, mem_toFinset]

theorem toFinset_singleton : (singleton x).toFinset = {x} := by
  ext y
  simp

theorem toFinset_ofList : (ofList xs).toFinset = xs.toFinset := by
  ext y
  simp

theorem toFinset_put : (s.put x).2.toFinset = Insert.insert x s.toFinset := by
  ext y
  rw [Finset.mem_insert, mem_toFinset, mem_toFinset]
  exact mem_insert

theorem toFinset_absorb : (s.absorb t).2.toFinset = s.toFinset ∪ t.toFinset := by
  ext y
  rw [Finset.mem_union, mem_toFinset, mem_toFinset, mem_toFinset]
  exact mem_union

theorem toFinset_diff : (s.diff t).toFinset = s.toFinset \ t.toFinset := by
  ext y
  simp

theorem card_toFinset : s.toFinset.card = s.size :=
  List.toFinset_card_of_nodup (nodup_of_sorted s.sorted)

theorem isEmpty_iff_toFinset : s.isEmpty = true ↔ s.toFinset = ∅ := by
  simp [Finset.eq_empty_iff_forall_notMem]

/-- A set reports growth exactly if there is more in it afterwards. -/
theorem absorb_fst_iff_ssubset :
    (s.absorb t).1 = true ↔ s.toFinset ⊂ (s.absorb t).2.toFinset := by
  rw [absorb_fst_iff, toFinset_absorb, Finset.ssubset_iff_of_subset Finset.subset_union_left]
  constructor
  · rintro ⟨x, hxt, hxs⟩
    exact ⟨x, Finset.mem_union_right _ (mem_toFinset.2 hxt), fun hx => hxs (mem_toFinset.1 hx)⟩
  · rintro ⟨x, hx, hxs⟩
    have hxt := (Finset.mem_union.1 hx).resolve_left hxs
    exact ⟨x, mem_toFinset.1 hxt, fun hx => hxs (mem_toFinset.2 hx)⟩

theorem isSubset_iff_toFinset : s.isSubset t = true ↔ s.toFinset ⊆ t.toFinset := by
  rw [isSubset_iff, Finset.subset_iff]
  simp only [mem_toFinset]

theorem meets_iff_toFinset : s.meets t = true ↔ (s.toFinset ∩ t.toFinset).Nonempty := by
  rw [meets_iff, Finset.Nonempty]
  simp only [Finset.mem_inter, mem_toFinset]

end IdSet

/-- A way to obtain a set. -/
inductive SetTerm where
  | empty
  | singleton (x : Nat)
  | ofList (xs : List Nat)
  | put (t : SetTerm) (x : Nat)
  | absorb (t u : SetTerm)
  | diff (t u : SetTerm)
deriving DecidableEq

namespace SetTerm

/-- The set that is obtained. -/
def set : SetTerm → IdSet
  | empty => ∅
  | singleton x => .singleton x
  | ofList xs => .ofList xs
  | put t x => (t.set.put x).2
  | absorb t u => (t.set.absorb u.set).2
  | diff t u => t.set.diff u.set

/-- The finite set that the term stands for. -/
def members : SetTerm → Finset Nat
  | empty => ∅
  | singleton x => {x}
  | ofList xs => xs.toFinset
  | put t x => insert x t.members
  | absorb t u => t.members ∪ u.members
  | diff t u => t.members \ u.members

theorem toFinset_set (t : SetTerm) : t.set.toFinset = t.members := by
  induction t with
  | empty => rfl
  | singleton x => exact IdSet.toFinset_singleton
  | ofList xs => exact IdSet.toFinset_ofList
  | put t x ih => exact IdSet.toFinset_put.trans (by rw [ih, members])
  | absorb t u iht ihu => exact IdSet.toFinset_absorb.trans (by rw [iht, ihu, members])
  | diff t u iht ihu => exact IdSet.toFinset_diff.trans (by rw [iht, ihu, members])

/-- However sets are obtained, their members stand in strictly increasing order, and looking for a
member, adding one, adding all of another set, taking those of another set away and comparing two sets
are what they are for finite sets. Adding reports whether the set has changed. -/
theorem operations_exact (t u : SetTerm) (x : Nat) :
    t.set.toList.Pairwise (· < ·) ∧ t.set.toList.toFinset = t.members ∧
    t.set.size = t.members.card ∧ (t.set.isEmpty = true ↔ t.members = ∅) ∧
    (t.set.contains x = true ↔ x ∈ t.members) ∧
    ((t.set.put x).1 = true ↔ x ∉ t.members) ∧
    (∀ y, y ∈ (t.set.put x).2 ↔ y = x ∨ y ∈ t.members) ∧
    ((t.set.absorb u.set).1 = true ↔ t.members ⊂ t.members ∪ u.members) ∧
    (∀ y, y ∈ (t.set.absorb u.set).2 ↔ y ∈ t.members ∨ y ∈ u.members) ∧
    (∀ y, y ∈ t.set.diff u.set ↔ y ∈ t.members ∧ y ∉ u.members) ∧
    (t.set.isSubset u.set = true ↔ t.members ⊆ u.members) ∧
    (t.set.meets u.set = true ↔ (t.members ∩ u.members).Nonempty) ∧
    (t.set = u.set ↔ t.members = u.members) := by
  rw [← toFinset_set t, ← toFinset_set u]
  refine ⟨t.set.sorted, rfl, IdSet.card_toFinset.symm, IdSet.isEmpty_iff_toFinset, ?_, ?_, ?_, ?_, ?_, ?_,
    IdSet.isSubset_iff_toFinset, IdSet.meets_iff_toFinset, IdSet.toFinset_inj.symm⟩
  · rw [IdSet.contains_iff, IdSet.mem_toFinset]
  · rw [IdSet.put_fst_iff, IdSet.mem_toFinset]
  · intro y
    rw [← IdSet.mem_toFinset, IdSet.toFinset_put, Finset.mem_insert]
  · rw [IdSet.absorb_fst_iff_ssubset, IdSet.toFinset_absorb]
  · intro y
    rw [← IdSet.mem_toFinset, IdSet.toFinset_absorb, Finset.mem_union]
  · intro y
    rw [← IdSet.mem_toFinset, IdSet.toFinset_diff, Finset.mem_sdiff]

/-- Growth at the end, in the middle and not at all. -/
example :
    ((put (ofList [5, 1, 3, 1]) 3).set.toList, ((ofList [1, 4, 7]).set.absorb (ofList [7, 4]).set).1,
      (absorb (ofList [1, 4, 7]) (ofList [9, 2, 7])).set.toList) =
        ([1, 3, 5], false, [1, 2, 4, 7, 9]) := by
  decide

end SetTerm

end PointsTo
