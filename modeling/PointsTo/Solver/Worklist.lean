import PointsTo.Collection.Deque
import PointsTo.Solver.Arena

/-!
# The worklist

An entry says that some objects have arrived at a pointer. Entries are added at the back; which end
they are taken from is a parameter of the run and has no influence on its outcome.
-/

namespace PointsTo

/-- Which entry is taken next. -/
inductive WorklistOrder where
  | fifo
  | lifo
deriving DecidableEq, Inhabited

/-- Objects that have arrived at a pointer. -/
structure Arrival where
  pointer : PointerId
  objects : PointsToSet
deriving DecidableEq

/-- The arrivals that are still to be handled. -/
structure Worklist where
  /-- Which arrival is taken next. -/
  order : WorklistOrder
  /-- The arrivals, oldest first. -/
  arrivals : Deque Arrival

namespace Worklist

/-- The worklist without arrivals. -/
def empty (order : WorklistOrder) : Worklist := ⟨order, ∅⟩

/-- The arrivals, oldest first. -/
def toList (w : Worklist) : List Arrival := w.arrivals.toList

/-- The worklist with one more arrival. -/
def push (w : Worklist) (a : Arrival) : Worklist := { w with arrivals := w.arrivals.push a }

/-- The next arrival, and the worklist without it. -/
def pop (w : Worklist) : Option (Arrival × Worklist) :=
  let taken := match w.order with
    | .fifo => w.arrivals.popFront
    | .lifo => w.arrivals.popBack
  taken.map fun (a, arrivals) => (a, { w with arrivals })

/-- The number of arrivals. -/
def size (w : Worklist) : Nat := w.arrivals.size

/-- Is there no arrival? -/
def isEmpty (w : Worklist) : Bool := w.arrivals.isEmpty

@[simp] theorem toList_push {w : Worklist} {a : Arrival} : (w.push a).toList = w.toList ++ [a] :=
  Deque.toList_push

theorem pop_eq_none_iff {w : Worklist} : w.pop = none ↔ w.toList = [] := by
  simp only [pop, Option.map_eq_none_iff]
  cases w.order
  · exact Deque.popFront_eq_none_iff
  · exact Deque.popBack_eq_none_iff

/-- Taking an arrival leaves all others. -/
theorem perm_of_pop {w v : Worklist} {a : Arrival} (h : w.pop = some (a, v)) :
    w.toList.Perm (a :: v.toList) := by
  simp only [pop, Option.map_eq_some_iff, Prod.exists, Prod.mk.injEq] at h
  obtain ⟨b, q, hq, rfl, rfl⟩ := h
  cases ho : w.order <;> simp only [ho] at hq
  · rw [toList, Deque.toList_of_popFront hq]
    exact .rfl
  · rw [toList, Deque.toList_of_popBack hq]
    exact List.perm_append_singleton _ _

end Worklist

end PointsTo
