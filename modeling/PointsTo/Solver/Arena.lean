import PointsTo.Collection.IdSet
import PointsTo.Collection.Interner
import PointsTo.Solver.Element

/-!
# The arena

The arena interns contexts, objects, methods, call sites and pointers, and holds one points-to set for
each pointer. A pointer's set is empty when the pointer is interned and changes only through
`setPointsTo` of its own id.

The empty context always has the id `emptyContext`.
-/

namespace PointsTo

/-- A finite set of objects under heap contexts, by id. -/
abbrev PointsToSet := IdSet

/-- Everything interned, and the points-to sets. -/
structure Arena where
  contexts : Interner Context
  objects : Interner CSObj
  methods : Interner CSMethod
  sites : Interner CSSite
  pointers : Interner Pointer
  /-- The points-to set of each pointer. -/
  pointsToSets : Array PointsToSet
  /-- Each pointer has one set. -/
  size_pointsToSets : pointsToSets.size = pointers.size
deriving DecidableEq

namespace Arena

/-- The id of the empty context. -/
def emptyContext : ContextId := 0

/-- The arena that knows the empty context and nothing else. -/
def initial : Arena where
  contexts := ((∅ : Interner Context).intern ∅).2
  objects := ∅
  methods := ∅
  sites := ∅
  pointers := ∅
  pointsToSets := #[]
  size_pointsToSets := rfl

instance : Inhabited Arena := ⟨initial⟩

/-! ## Interning -/

/-- The id of a context. -/
def internContext (a : Arena) (c : Context) : ContextId × Arena :=
  let (id, contexts) := a.contexts.intern c
  (id, { a with contexts })

/-- The id of an object under its heap context. -/
def internObject (a : Arena) (o : CSObj) : CSObjId × Arena :=
  let (id, objects) := a.objects.intern o
  (id, { a with objects })

/-- The id of a method under its context. -/
def internMethod (a : Arena) (m : CSMethod) : CSMethodId × Arena :=
  let (id, methods) := a.methods.intern m
  (id, { a with methods })

/-- The id of a call site under its context. -/
def internSite (a : Arena) (s : CSSite) : CSSiteId × Arena :=
  let (id, sites) := a.sites.intern s
  (id, { a with sites })

/-- The id of a pointer; a new one gets the empty set. -/
def internPointer (a : Arena) (p : Pointer) : PointerId × Arena :=
  match h : a.pointers.find? p with
  | some id => (id, a)
  | none => (a.pointers.size, { a with
      pointers := (a.pointers.intern p).2
      pointsToSets := a.pointsToSets.push ∅
      size_pointsToSets := by
        have hi := Interner.items_intern_of_find?_eq_none h
        simp [Interner.size, hi.2, a.size_pointsToSets] })

/-! ## Points-to sets -/

/-- The points-to set of a pointer; that of an id never handed out is empty. -/
def pointsTo (a : Arena) (p : PointerId) : PointsToSet := a.pointsToSets[p]?.getD ∅

/-- The arena in which pointer `p` has the set `s`. -/
def setPointsTo (a : Arena) (p : PointerId) (s : PointsToSet) : Arena :=
  { a with
    pointsToSets := a.pointsToSets.setIfInBounds p s
    size_pointsToSets := by simp [a.size_pointsToSets] }

/-- The points-to set of a pointer that may not be interned. -/
def pointsToOf (a : Arena) (p : Pointer) : PointsToSet :=
  ((a.pointers.find? p).map a.pointsTo).getD ∅

/-- Every pointer with its set, in the order of the ids. -/
def pointerSets (a : Arena) : List (Pointer × PointsToSet) :=
  a.pointers.toList.zip a.pointsToSets.toList

/-! ## What the operations hold -/

theorem internPointer_of_find? {a : Arena} {p : Pointer} {id : PointerId}
    (h : a.pointers.find? p = some id) : a.internPointer p = (id, a) := by
  unfold internPointer
  split
  · rename_i j hj
    rw [hj] at h
    cases h
    rfl
  · rename_i hn
    rw [hn] at h
    cases h

/-- Interning a pointer changes no points-to set. -/
@[simp] theorem pointsTo_internPointer {a : Arena} {p : Pointer} {q : PointerId} :
    (a.internPointer p).2.pointsTo q = a.pointsTo q := by
  unfold internPointer
  split
  · rfl
  · simp only [pointsTo, Array.getElem?_push]
    split
    · rename_i hq
      simp [hq]
    · rfl

theorem pointsTo_setPointsTo {a : Arena} {p q : PointerId} {s : PointsToSet} :
    (a.setPointsTo p s).pointsTo q =
      if p = q ∧ p < a.pointers.size then s else a.pointsTo q := by
  simp only [pointsTo, setPointsTo, Array.getElem?_setIfInBounds, ← a.size_pointsToSets]
  by_cases hq : p = q
  · subst hq
    by_cases hp : p < a.pointsToSets.size <;> simp [hp]
  · simp [hq]

end Arena

end PointsTo
