/-!
# Queues open at both ends

A `Deque α` is two lists, the front part in order and the back part reversed, so that pushing at the
back and popping at either end take constant time on the average. Its view is `toList`, front first;
`toList_push`, `toList_of_popFront` and `toList_of_popBack` say what each operation does to it.
-/

namespace PointsTo

/-- A queue open at both ends. -/
structure Deque (α : Type) where
  front : List α
  /-- The back part, last element first. -/
  back : List α

namespace Deque

variable {α : Type}

/-- The elements, front first. -/
def toList (q : Deque α) : List α := q.front ++ q.back.reverse

/-- The queue without elements. -/
def empty : Deque α := ⟨[], []⟩

instance : EmptyCollection (Deque α) := ⟨empty⟩

instance : Inhabited (Deque α) := ⟨empty⟩

/-- The queue with `a` at its back. -/
def push (q : Deque α) (a : α) : Deque α := ⟨q.front, a :: q.back⟩

/-- The front element and the queue behind it. -/
def popFront : Deque α → Option (α × Deque α)
  | ⟨a :: front, back⟩ => some (a, ⟨front, back⟩)
  | ⟨[], back⟩ =>
    match back.reverse with
    | [] => none
    | a :: front => some (a, ⟨front, []⟩)

/-- The back element and the queue before it. -/
def popBack : Deque α → Option (α × Deque α)
  | ⟨front, a :: back⟩ => some (a, ⟨front, back⟩)
  | ⟨front, []⟩ =>
    match front.reverse with
    | [] => none
    | a :: back => some (a, ⟨[], back⟩)

/-- How many elements the queue has. -/
def size (q : Deque α) : Nat := q.front.length + q.back.length

/-- Has the queue no element? -/
def isEmpty (q : Deque α) : Bool := q.front.isEmpty && q.back.isEmpty

@[simp] theorem toList_empty : (∅ : Deque α).toList = [] := rfl

@[simp] theorem toList_push {q : Deque α} {a : α} : (q.push a).toList = q.toList ++ [a] := by
  simp [toList, push]

@[simp] theorem length_toList {q : Deque α} : q.toList.length = q.size := by
  simp [toList, size]

theorem popFront_eq_none_iff {q : Deque α} : q.popFront = none ↔ q.toList = [] := by
  obtain ⟨front, back⟩ := q
  cases front with
  | cons a front => simp [popFront, toList]
  | nil =>
    simp only [popFront, toList, List.nil_append]
    cases back.reverse <;> simp

/-- Popping at the front takes the first element of the view. -/
theorem toList_of_popFront {q r : Deque α} {a : α} (h : q.popFront = some (a, r)) :
    q.toList = a :: r.toList := by
  obtain ⟨front, back⟩ := q
  cases front with
  | cons b front =>
    simp only [popFront, Option.some.injEq, Prod.mk.injEq] at h
    obtain ⟨rfl, rfl⟩ := h
    rfl
  | nil =>
    simp only [popFront] at h
    cases hb : back.reverse with
    | nil => simp [hb] at h
    | cons b bs =>
      simp only [hb, Option.some.injEq, Prod.mk.injEq] at h
      obtain ⟨rfl, rfl⟩ := h
      simp [toList, hb]

theorem popBack_eq_none_iff {q : Deque α} : q.popBack = none ↔ q.toList = [] := by
  obtain ⟨front, back⟩ := q
  cases back with
  | cons a back => simp [popBack, toList]
  | nil =>
    simp only [popBack, toList, List.reverse_nil, List.append_nil]
    rw [← List.reverse_eq_nil_iff]
    cases front.reverse <;> simp

/-- Popping at the back takes the last element of the view. -/
theorem toList_of_popBack {q r : Deque α} {a : α} (h : q.popBack = some (a, r)) :
    q.toList = r.toList ++ [a] := by
  obtain ⟨front, back⟩ := q
  cases back with
  | cons b back =>
    simp only [popBack, Option.some.injEq, Prod.mk.injEq] at h
    obtain ⟨rfl, rfl⟩ := h
    simp [toList]
  | nil =>
    simp only [popBack] at h
    cases hb : front.reverse with
    | nil => simp [hb] at h
    | cons b bs =>
      simp only [hb, Option.some.injEq, Prod.mk.injEq] at h
      obtain ⟨rfl, rfl⟩ := h
      have : front = (b :: bs).reverse := by rw [← hb, List.reverse_reverse]
      simp [toList, this]

end Deque

end PointsTo
