import Mathlib.Data.List.DropRight
import PointsTo.Config.Basic

/-!
# Suffixes of contexts

Every policy keeps the last elements of a context, and a run cuts one context several times: when a
method is entered, when an object is recorded and when the object becomes a receiver. The lemmas here
say how two cuts, or a cut and a new element, combine into one. All follow from `lastOf_lastOf` and
`lastOf_append_singleton`.
-/

namespace PointsTo

namespace Context

variable {α β : Type} {c : Context} {e : ContextElement}

theorem lastOf_eq_rtake (n : Nat) (xs : List α) : lastOf n xs = xs.rtake n := rfl

theorem length_lastOf (n : Nat) (xs : List α) : (lastOf n xs).length = min n xs.length := by
  rw [lastOf, List.length_drop]
  omega

theorem length_lastOf_le (n : Nat) (xs : List α) : (lastOf n xs).length ≤ n :=
  length_lastOf n xs ▸ Nat.min_le_left _ _

theorem lastOf_suffix (n : Nat) (xs : List α) : lastOf n xs <:+ xs := List.drop_suffix _ _

theorem lastOf_subset (n : Nat) (xs : List α) : lastOf n xs ⊆ xs := (lastOf_suffix n xs).subset

theorem lastOf_lastOf (j k : Nat) (xs : List α) : lastOf j (lastOf k xs) = lastOf (min j k) xs := by
  simp only [lastOf_eq_rtake, List.rtake_eq_reverse_take_reverse, List.reverse_reverse]
  rw [List.take_take]

theorem lastOf_append_singleton (n : Nat) (xs : List α) (x : α) :
    lastOf n xs ++ [x] = lastOf (n + 1) (xs ++ [x]) :=
  (List.rtake_concat_succ xs n x).symm

/-- Elements that are dropped from the front play no role for what is kept in the end. -/
theorem lastOf_lastOf_append (n : Nat) (xs ys : List α) :
    lastOf n (lastOf n xs ++ ys) = lastOf n (xs ++ ys) := by
  induction ys generalizing xs with
  | nil => rw [List.append_nil, List.append_nil, lastOf_lastOf, Nat.min_self]
  | cons y ys ih =>
    rw [List.append_cons, List.append_cons xs, ← ih (lastOf n xs ++ [y]), ← ih (xs ++ [y]),
      lastOf_append_singleton, lastOf_lastOf, Nat.min_eq_left (Nat.le_succ n)]

theorem map_lastOf (f : α → β) (n : Nat) (xs : List α) :
    (lastOf n xs).map f = lastOf n (xs.map f) := by
  rw [lastOf, lastOf, List.map_drop, List.length_map]

theorem truncate_truncate (j k : Nat) : (c.truncate k).truncate j = c.truncate (min j k) :=
  congrArg mk (lastOf_lastOf j k c.elements)

theorem truncate_append (j k : Nat) : (c.append e k).truncate j = c.append e (min j k) :=
  congrArg mk (lastOf_lastOf j k (c.elements ++ [e]))

/-- An element behind a context that was cut before: the context need not have been cut, if the whole is
cut to one more. -/
theorem append_truncate (j k : Nat) : (c.truncate k).append e j = c.append e (min j (k + 1)) := by
  refine congrArg mk ?_
  show lastOf j (lastOf k c.elements ++ [e]) = _
  rw [lastOf_append_singleton, lastOf_lastOf]

/-- The new element is the last one, if there is room for any. -/
theorem getLast?_append {n : Nat} (hn : 1 ≤ n) : (c.append e n).elements.getLast? = some e := by
  show (lastOf n (c.elements ++ [e])).getLast? = some e
  rw [lastOf, List.getLast?_drop, if_neg, List.getLast?_concat]
  rw [List.length_append, List.length_singleton]
  omega

theorem truncate_empty (n : Nat) : (∅ : Context).truncate n = ∅ := by
  show mk (lastOf n []) = mk []
  rw [lastOf, List.drop_nil]

theorem truncate_zero (c : Context) : c.truncate 0 = ∅ := by
  show mk (c.elements.drop (c.elements.length - 0)) = mk []
  rw [Nat.sub_zero, List.drop_length]

theorem append_zero (c : Context) (e : ContextElement) : c.append e 0 = ∅ :=
  truncate_zero ⟨c.elements ++ [e]⟩

/-! ## Replacing the elements -/

/-- The context with every element replaced. -/
def map (f : ContextElement → ContextElement) (c : Context) : Context := ⟨c.elements.map f⟩

variable {f : ContextElement → ContextElement}

theorem map_truncate (n : Nat) : (c.truncate n).map f = (c.map f).truncate n :=
  congrArg mk (map_lastOf f n c.elements)

theorem map_append (n : Nat) : (c.append e n).map f = (c.map f).append (f e) n := by
  refine congrArg mk ?_
  show (lastOf n (c.elements ++ [e])).map f = lastOf n (c.elements.map f ++ [f e])
  rw [map_lastOf, List.map_append, List.map_singleton]

end Context

/-- The selector that a configuration asks for with a policy, contexts of at most `k` elements for
methods and of at most `heapK` for objects. -/
def ContextPolicy.selector (policy : ContextPolicy) (k heapK : Nat) : Selector :=
  { Config.standard with policy, contextDepth := k, heapContextDepth := heapK }.selector

end PointsTo
