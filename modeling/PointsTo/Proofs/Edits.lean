import Mathlib.Order.Bounds.Basic
import PointsTo.Text.EditDistance

/-!
# Texts that become each other by edits

An edit puts in, takes out or exchanges one character, anywhere in a text, and edits follow each other in any
order (`Edits`). Nothing in this says that a text is gone through from one end to the other, or that no
character is touched twice. That the least number of edits can nevertheless be found by going through both
texts at once (`distance`) has two halves. The choices on the way are edits, which can all be made where they
are met (`edits_distance`); and one edit, wherever it is made, changes the outcome by one at most
(`distance_le_of_edit`), so that no other way is shorter. The second half goes through what stands before the
place of the edit, which may be matched with anything.
-/

namespace PointsTo.Text

/-- One edit makes the second text of the first. -/
inductive Edit : List Char → List Char → Prop where
  | insert (before after : List Char) (c : Char) : Edit (before ++ after) (before ++ c :: after)
  | delete (before after : List Char) (c : Char) : Edit (before ++ c :: after) (before ++ after)
  | substitute (before after : List Char) (c d : Char) :
      Edit (before ++ c :: after) (before ++ d :: after)

/-- A number of edits, one after the other, makes the second text of the first. -/
inductive Edits : (count : Nat) → List Char → List Char → Prop where
  | done (s : List Char) : Edits 0 s s
  | next {n : Nat} {s t u : List Char} (first : Edit s t) (rest : Edits n t u) : Edits (n + 1) s u

variable {s t u : List Char} {m n : Nat}

/-! ## Edits of texts -/

theorem Edit.symm (h : Edit s t) : Edit t s := by
  cases h with
  | insert before after c => exact .delete before after c
  | delete before after c => exact .insert before after c
  | substitute before after c d => exact .substitute before after d c

theorem Edit.cons (c : Char) (h : Edit s t) : Edit (c :: s) (c :: t) := by
  cases h with
  | insert before after d => exact .insert (c :: before) after d
  | delete before after d => exact .delete (c :: before) after d
  | substitute before after d e => exact .substitute (c :: before) after d e

theorem Edit.reverse (h : Edit s t) : Edit s.reverse t.reverse := by
  cases h with
  | insert before after c => simpa using Edit.insert after.reverse before.reverse c
  | delete before after c => simpa using Edit.delete after.reverse before.reverse c
  | substitute before after c d => simpa using Edit.substitute after.reverse before.reverse c d

namespace Edits

theorem single (h : Edit s t) : Edits 1 s t := .next h (.done t)

theorem trans (h : Edits m s t) (h' : Edits n t u) : Edits (m + n) s u := by
  induction h with
  | done s => rwa [Nat.zero_add]
  | @next m s t u first rest ih =>
    rw [Nat.add_right_comm]
    exact .next first (ih h')

theorem symm (h : Edits n s t) : Edits n t s := by
  induction h with
  | done s => exact .done s
  | next first rest ih => exact ih.trans (single first.symm)

theorem cons (c : Char) (h : Edits n s t) : Edits n (c :: s) (c :: t) := by
  induction h with
  | done s => exact .done (c :: s)
  | next first rest ih => exact .next (first.cons c) ih

theorem reverse (h : Edits n s t) : Edits n s.reverse t.reverse := by
  induction h with
  | done s => exact .done s.reverse
  | next first rest ih => exact .next first.reverse ih

theorem reverse_iff : Edits n s.reverse t.reverse ↔ Edits n s t := by
  refine ⟨fun h => ?_, reverse⟩
  rw [← s.reverse_reverse, ← t.reverse_reverse]
  exact h.reverse

theorem eq_of_zero (h : Edits 0 s t) : s = t := by
  cases h
  rfl

/-- A text is put in character by character. -/
theorem of_nil (t : List Char) : Edits t.length [] t := by
  induction t with
  | nil => exact .done []
  | cons d t ih => exact .next (.insert [] [] d) (ih.cons d)

protected theorem min (h : Edits m s t) (h' : Edits n s t) : Edits (min m n) s t := by
  rcases Nat.le_total m n with hle | hle
  · rwa [Nat.min_eq_left hle]
  · rwa [Nat.min_eq_right hle]

theorem to_nil (s : List Char) : Edits s.length s [] := (of_nil s).symm

end Edits

/-! ## The least number of them -/

/-- What it takes to make `t` of `s`, going through both of them from the front: the first characters of both
are matched, or that of `s` is taken out, or that of `t` is put in. -/
def distance : (s t : List Char) → Nat
  | [], t => t.length
  | c :: s, [] => (c :: s).length
  | c :: s, d :: t =>
    min (min (distance s (d :: t) + 1) (distance (c :: s) t + 1)) (distance s t + if c = d then 0 else 1)
termination_by s t => s.length + t.length

theorem distance_nil_left (t : List Char) : distance [] t = t.length := by rw [distance]

theorem distance_nil_right (s : List Char) : distance s [] = s.length := by cases s <;> rw [distance]

theorem distance_cons_cons (c d : Char) (s t : List Char) : distance (c :: s) (d :: t) =
    min (min (distance s (d :: t) + 1) (distance (c :: s) t + 1))
      (distance s t + if c = d then 0 else 1) := by
  rw [distance]

/-- There are as many edits as the distance says. -/
theorem edits_distance (s t : List Char) : Edits (distance s t) s t := by
  induction s, t using distance.induct with
  | case1 t =>
    rw [distance_nil_left]
    exact .of_nil t
  | case2 c s =>
    rw [distance_nil_right]
    exact .to_nil (c :: s)
  | case3 c s d t hdelete hinsert hmatch =>
    have hdelete : Edits (distance s (d :: t) + 1) (c :: s) (d :: t) := .next (.delete [] s c) hdelete
    have hinsert : Edits (distance (c :: s) t + 1) (c :: s) (d :: t) :=
      .next (.insert [] (c :: s) d) (hinsert.cons d)
    have hmatch : Edits (distance s t + if c = d then 0 else 1) (c :: s) (d :: t) := by
      by_cases hcd : c = d
      · rw [if_pos hcd, hcd]
        exact hmatch.cons d
      · rw [if_neg hcd]
        exact .next (.substitute [] s c d) (hmatch.cons d)
    rw [distance_cons_cons]
    exact (hdelete.min hinsert).min hmatch

/-! ## One edit more -/

theorem distance_cons_left_le (c : Char) (s t : List Char) : distance (c :: s) t ≤ distance s t + 1 := by
  cases t with
  | nil =>
    rw [distance_nil_right, distance_nil_right]
    rfl
  | cons d t =>
    rw [distance_cons_cons]
    omega

theorem distance_cons_right_le (d : Char) (s t : List Char) : distance s (d :: t) ≤ distance s t + 1 := by
  cases s with
  | nil =>
    rw [distance_nil_left, distance_nil_left]
    rfl
  | cons c s =>
    rw [distance_cons_cons]
    omega

theorem le_distance_cons_left (c : Char) (s t : List Char) : distance s t ≤ distance (c :: s) t + 1 := by
  induction t with
  | nil =>
    rw [distance_nil_right, distance_nil_right, List.length_cons]
    omega
  | cons d t ih =>
    have hright := distance_cons_right_le d s t
    rw [distance_cons_cons]
    omega

theorem distance_substitute_le (c d : Char) (s t : List Char) :
    distance (c :: s) t ≤ distance (d :: s) t + 1 := by
  induction t with
  | nil =>
    rw [distance_nil_right, distance_nil_right, List.length_cons, List.length_cons]
    omega
  | cons e t ih =>
    rw [distance_cons_cons, distance_cons_cons]
    split <;> split <;> omega

/-- What the distances of two texts differ by at most is not changed by one character before both. -/
theorem distance_cons_le (h : ∀ u, distance s u ≤ distance t u + 1) (c : Char) (u : List Char) :
    distance (c :: s) u ≤ distance (c :: t) u + 1 := by
  induction u with
  | nil =>
    have hnil := h []
    rw [distance_nil_right, distance_nil_right] at hnil ⊢
    rw [List.length_cons, List.length_cons]
    omega
  | cons d u ih =>
    have hall := h (d :: u)
    have hrest := h u
    rw [distance_cons_cons, distance_cons_cons]
    omega

theorem distance_append_le (h : ∀ u, distance s u ≤ distance t u + 1) (before u : List Char) :
    distance (before ++ s) u ≤ distance (before ++ t) u + 1 := by
  induction before generalizing u with
  | nil => exact h u
  | cons c before ih => exact distance_cons_le ih c u

theorem distance_le_of_edit (h : Edit s t) (u : List Char) : distance s u ≤ distance t u + 1 := by
  cases h with
  | insert before after c => exact distance_append_le (le_distance_cons_left c after) before u
  | delete before after c => exact distance_append_le (distance_cons_left_le c after) before u
  | substitute before after c d => exact distance_append_le (distance_substitute_le c d after) before u

theorem distance_self (s : List Char) : distance s s = 0 := by
  induction s with
  | nil => rw [distance_nil_left, List.length_nil]
  | cons c s ih =>
    rw [distance_cons_cons, ih, if_pos rfl]
    omega

/-- There are no fewer edits than the distance says. -/
theorem distance_le_of_edits (h : Edits n s t) : distance s t ≤ n := by
  induction h with
  | done s => exact (distance_self s).le
  | @next n s t u first rest ih =>
    have hfirst := distance_le_of_edit first u
    omega

theorem isLeast_distance (s t : List Char) : IsLeast {n | Edits n s t} (distance s t) :=
  ⟨edits_distance s t, fun _ => distance_le_of_edits⟩

end PointsTo.Text
