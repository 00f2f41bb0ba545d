import PointsTo.Collection.Distinct
import PointsTo.Proofs.Arena

/-!
# Ids are canonical

An arena starts with the empty context and is then called in any order: for the id of a value of any kind,
or to change the points-to set of a pointer. Its tables hold the values asked for, each at its first
occurrence (`toList_table_after`), and what they hold stays (`get?_table_calls`). So the id of a value says
how many others were asked for before it, and no call before or after has a part in it (`canonical`). A
points-to set comes with its pointer and has the history of the calls that change it
(`pointsToSets_calls`).
-/

namespace PointsTo

namespace Interner

variable {α : Type} {t : Interner α} {a : α} {i : Nat}

theorem getElem?_toList : t.toList[i]? = t.get? i := Array.getElem?_toList

theorem mem_toList_iff : a ∈ t.toList ↔ ∃ i, t.get? i = some a := by
  simp only [List.mem_iff_getElem?, getElem?_toList]

variable [DecidableEq α]

theorem toList_intern : (t.intern a).2.toList = insertNew t.toList a := by
  cases h : t.find? a with
  | some i =>
    rw [intern_of_find? h, insertNew, if_pos (mem_toList_iff.2 ⟨i, find?_eq_some_iff.1 h⟩)]
  | none =>
    have hnew : a ∉ t.toList := fun ha =>
      (mem_toList_iff.1 ha).elim fun i hi => find?_eq_none_iff.1 h i hi
    rw [insertNew, if_neg hnew, toList, (items_intern_of_find?_eq_none h).2, Array.toList_push]
    rfl

/-- The id of a value is its position. -/
theorem intern_fst_eq_idxOf : (t.intern a).1 = (t.intern a).2.toList.idxOf a := by
  have hid : (t.intern a).2.get? (t.intern a).1 = some a := get?_intern_self
  have hpos := List.getElem?_idxOf (mem_toList_iff.2 ⟨_, hid⟩)
  exact eq_of_get? hid (getElem?_toList.symm.trans hpos)

end Interner

/-- What an arena has ids for. -/
inductive Kind where
  | context
  | object
  | method
  | site
  | pointer
deriving DecidableEq

/-- The values of a kind. -/
abbrev Kind.Value : Kind → Type
  | context => Context
  | object => CSObj
  | method => CSMethod
  | site => CSSite
  | pointer => Pointer

instance : (k : Kind) → DecidableEq k.Value
  | .context => inferInstanceAs (DecidableEq Context)
  | .object => inferInstanceAs (DecidableEq CSObj)
  | .method => inferInstanceAs (DecidableEq CSMethod)
  | .site => inferInstanceAs (DecidableEq CSSite)
  | .pointer => inferInstanceAs (DecidableEq Pointer)

/-- A call that may change an arena. -/
inductive ArenaCall where
  /-- Ask for the id of a value. -/
  | request (k : Kind) (v : k.Value)
  /-- Change the points-to set of a pointer; under an id that no pointer has, there is none to change. -/
  | change (p : PointerId) (f : PointsToSet → PointsToSet)

namespace ArenaCall

/-- The value of kind `k` that is asked for. -/
def value? : (k : Kind) → ArenaCall → Option k.Value
  | .context, request .context c => some c
  | .object, request .object o => some o
  | .method, request .method m => some m
  | .site, request .site x => some x
  | .pointer, request .pointer p => some p
  | _, _ => none

/-- What the call makes of the points-to set of the pointer `q`. -/
def effect (q : PointerId) (s : PointsToSet) : ArenaCall → PointsToSet
  | request _ _ => s
  | change p f => if p = q then f s else s

@[simp] theorem value?_request (k : Kind) (v : k.Value) : (request k v).value? k = some v := by
  cases k <;> rfl

theorem value?_request_of_ne {j k : Kind} (h : j ≠ k) (v : j.Value) :
    (request j v).value? k = none := by
  cases j <;> cases k <;> first | rfl | exact absurd rfl h

@[simp] theorem value?_change (k : Kind) (p : PointerId) (f : PointsToSet → PointsToSet) :
    (change p f).value? k = none := by
  cases k <;> rfl

theorem value?_eq_some_iff {c : ArenaCall} {k : Kind} {v : k.Value} :
    c.value? k = some v ↔ c = request k v := by
  constructor
  · intro h
    cases c with
    | request j w =>
      by_cases hj : j = k
      · subst hj
        rw [value?_request] at h
        rw [Option.some.inj h]
      · rw [value?_request_of_ne hj] at h
        cases h
    | change p f =>
      rw [value?_change] at h
      cases h
  · rintro rfl
    exact value?_request k v

end ArenaCall

namespace Arena

variable {a : Arena} {k : Kind}

/-- The table of a kind. -/
def table (a : Arena) : (k : Kind) → Interner k.Value
  | .context => a.contexts
  | .object => a.objects
  | .method => a.methods
  | .site => a.sites
  | .pointer => a.pointers

/-- The id of a value of any kind. -/
def request (a : Arena) : (k : Kind) → k.Value → Nat × Arena
  | .context, c => a.internContext c
  | .object, o => a.internObject o
  | .method, m => a.internMethod m
  | .site, x => a.internSite x
  | .pointer, p => a.internPointer p

/-- The arena after a call. -/
def perform (a : Arena) : ArenaCall → Arena
  | .request k v => (a.request k v).2
  | .change p f => a.setPointsTo p (f (a.pointsTo p))

/-- The arena after calls, from its start. -/
def after (cs : List ArenaCall) : Arena := cs.foldl perform initial

/-- The values of a kind that are asked for at the start. -/
def askedInitially : (k : Kind) → List k.Value
  | .context => [∅]
  | _ => []

/-- The values of kind `k` that the calls ask for, after those at the start. -/
def asked (k : Kind) (cs : List ArenaCall) : List k.Value :=
  askedInitially k ++ cs.filterMap (·.value? k)

theorem after_append_cons (cs ds : List ArenaCall) (c : ArenaCall) :
    after (cs ++ c :: ds) = ds.foldl perform ((after cs).perform c) := by
  rw [after, List.foldl_append]
  rfl

theorem asked_concat (k : Kind) (cs : List ArenaCall) (c : ArenaCall) :
    asked k (cs ++ [c]) = asked k cs ++ (c.value? k).toList := by
  rw [asked, asked, List.filterMap_append, List.append_assoc]
  cases h : c.value? k <;> simp [h]

/-! ## What one call does -/

theorem request_fst (v : k.Value) : (a.request k v).1 = ((a.table k).intern v).1 := by
  cases k with
  | pointer => exact (a.internPointer_eq v).1
  | _ => rfl

theorem table_request (v : k.Value) : (a.request k v).2.table k = ((a.table k).intern v).2 := by
  cases k with
  | pointer => exact (a.internPointer_eq v).2.1
  | _ => rfl

theorem table_request_of_ne {j : Kind} (h : j ≠ k) (v : j.Value) :
    (a.request j v).2.table k = a.table k := by
  cases j with
  | pointer =>
    obtain ⟨-, -, hc, ho, hm, hx⟩ := a.internPointer_eq v
    cases k with
    | context => exact hc
    | object => exact ho
    | method => exact hm
    | site => exact hx
    | pointer => exact absurd rfl h
  | _ => cases k <;> first | rfl | exact absurd rfl h

@[simp] theorem table_setPointsTo (p : PointerId) (s : PointsToSet) :
    (a.setPointsTo p s).table k = a.table k := by
  cases k <;> rfl

/-- A call adds what it asks for to the table of its kind, unless it is there, and adds nothing else. -/
theorem toList_table_perform (a : Arena) (c : ArenaCall) :
    ((a.perform c).table k).toList =
      (c.value? k).elim (a.table k).toList (insertNew (a.table k).toList) := by
  cases c with
  | request j v =>
    rw [perform]
    by_cases hj : j = k
    · subst hj
      rw [table_request, Interner.toList_intern, ArenaCall.value?_request, Option.elim_some]
    · rw [table_request_of_ne hj, ArenaCall.value?_request_of_ne hj, Option.elim_none]
  | change p f => rw [perform, table_setPointsTo, ArenaCall.value?_change, Option.elim_none]

/-- What an id stands for stays. -/
theorem get?_table_perform {i : Nat} {v : k.Value} (h : (a.table k).get? i = some v) (c : ArenaCall) :
    ((a.perform c).table k).get? i = some v := by
  cases c with
  | request j w =>
    rw [perform]
    by_cases hj : j = k
    · subst hj
      rw [table_request]
      exact Interner.get?_intern_of_some h
    · rw [table_request_of_ne hj]
      exact h
  | change p f =>
    rw [perform, table_setPointsTo]
    exact h

theorem pointsToSets_internPointer {p : Pointer} (h : a.pointers.find? p = none) :
    (a.internPointer p).2.pointsToSets = a.pointsToSets.push ∅ := by
  unfold internPointer
  split
  · rename_i i hi
    rw [h] at hi
    cases hi
  · rfl

/-- The set of a pointer changes by the effect of the call on it. -/
theorem pointsToSets_perform {q : PointerId} {s : PointsToSet} (h : a.pointsToSets[q]? = some s)
    (c : ArenaCall) : (a.perform c).pointsToSets[q]? = some (c.effect q s) := by
  cases c with
  | request j v =>
    cases j with
    | pointer =>
      show (a.internPointer v).2.pointsToSets[q]? = some s
      cases hv : a.pointers.find? v with
      | some i => rwa [internPointer_of_find? hv]
      | none =>
        -- the set of the new pointer goes behind all others
        have hq : q < a.pointsToSets.size := (Array.getElem?_eq_some_iff.1 h).1
        rw [pointsToSets_internPointer hv, Array.getElem?_push, if_neg (Nat.ne_of_lt hq), h]
    | _ => exact h
  | change p f =>
    show (a.pointsToSets.setIfInBounds p (f (a.pointsTo p)))[q]? = some (if p = q then f s else s)
    have hq : q < a.pointsToSets.size := (Array.getElem?_eq_some_iff.1 h).1
    rw [Array.getElem?_setIfInBounds]
    by_cases hp : p = q
    · subst hp
      rw [if_pos rfl, if_pos hq, if_pos rfl, pointsTo, h, Option.getD_some]
    · rw [if_neg hp, if_neg hp, h]

/-! ## What any calls do -/

theorem toList_table_after (k : Kind) (cs : List ArenaCall) :
    ((after cs).table k).toList = (asked k cs).eraseDups := by
  have hstart : (initial.table k).toList = (askedInitially k).eraseDups := by cases k <;> rfl
  exact eraseDups_of_steps (fun a : Arena => (a.table k).toList) toList_table_perform _ hstart cs

theorem get?_table_calls {i : Nat} {v : k.Value} (h : (a.table k).get? i = some v) (cs : List ArenaCall) :
    ((cs.foldl perform a).table k).get? i = some v := by
  induction cs generalizing a with
  | nil => exact h
  | cons c cs ih => exact ih (get?_table_perform h c)

theorem pointsToSets_calls {q : PointerId} {s : PointsToSet} (h : a.pointsToSets[q]? = some s)
    (cs : List ArenaCall) :
    (cs.foldl perform a).pointsToSets[q]? = some (cs.foldl (fun s c => c.effect q s) s) := by
  induction cs generalizing a s with
  | nil => exact h
  | cons c cs ih => exact ih (pointsToSets_perform h c)

/-- The id that a value gets stands for it from then on. -/
theorem get?_table_after (cs ds : List ArenaCall) (v : k.Value) :
    ((after (cs ++ .request k v :: ds)).table k).get? ((after cs).request k v).1 = some v := by
  rw [after_append_cons]
  refine get?_table_calls ?_ ds
  rw [perform, table_request, request_fst]
  exact Interner.get?_intern_self

theorem request_fst_eq_idxOf (cs : List ArenaCall) (v : k.Value) :
    ((after cs).request k v).1 = (asked k cs ++ [v]).eraseDups.idxOf v := by
  have htable := toList_table_after k (cs ++ [.request k v])
  rw [after_append_cons, asked_concat, ArenaCall.value?_request, List.foldl_nil, perform,
    table_request] at htable
  rw [request_fst, Interner.intern_fst_eq_idxOf, htable]
  rfl

/-- A pointer has an id if it was asked for, and then it is the id that it got. -/
theorem find?_pointers_after {cs : List ArenaCall} {p : Pointer} {id : PointerId} :
    (after cs).pointers.find? p = some id ↔
      ∃ bs es, cs = bs ++ .request .pointer p :: es ∧ ((after bs).request .pointer p).1 = id := by
  constructor
  · intro h
    have hget : ((after cs).table .pointer).get? id = some p := Interner.find?_eq_some_iff.1 h
    have hmem : p ∈ ((after cs).table .pointer).toList := Interner.mem_toList_iff.2 ⟨id, hget⟩
    rw [toList_table_after, List.mem_eraseDups] at hmem
    obtain ⟨c, hc, hv⟩ := List.mem_filterMap.1 hmem
    obtain rfl := ArenaCall.value?_eq_some_iff.1 hv
    obtain ⟨bs, es, rfl⟩ := List.append_of_mem hc
    exact ⟨bs, es, rfl, Interner.eq_of_get? (get?_table_after (k := .pointer) bs es p) hget⟩
  · rintro ⟨bs, es, rfl, rfl⟩
    exact Interner.find?_eq_some_iff.2 (get?_table_after (k := .pointer) bs es p)

/-- A pointer that was not asked for before comes with the empty set. -/
theorem pointsToSets_after {cs : List ArenaCall} {p : Pointer} (h : p ∉ asked .pointer cs) :
    ((after cs).perform (.request .pointer p)).pointsToSets[((after cs).request .pointer p).1]? =
      some ∅ := by
  have hnew : (after cs).pointers.find? p = none := by
    refine Interner.find?_eq_none_iff.2 fun i hi => h ?_
    have hmem : p ∈ ((after cs).table .pointer).toList := Interner.mem_toList_iff.2 ⟨i, hi⟩
    rwa [toList_table_after, List.mem_eraseDups] at hmem
  have hid : ((after cs).request .pointer p).1 = (after cs).pointsToSets.size := by
    rw [request_fst, (after cs).size_pointsToSets]
    exact (Interner.items_intern_of_find?_eq_none hnew).1
  show ((after cs).internPointer p).2.pointsToSets[_]? = _
  rw [pointsToSets_internPointer hnew, hid, Array.getElem?_push_size]

/-- However an arena is called, two requests for values of one kind get the same id exactly if they name
the same value. The ids of a kind are handed out in the order of the first requests and are the positions
in it. An id stands for its value at every later moment, and a pointer is found if it was asked for before,
with the id that it got. Each pointer has one points-to set, which is empty at first and is what the
changes under this very id have made of it. -/
theorem canonical (cs ds : List ArenaCall) (k : Kind) (v w : k.Value) :
    (((after cs).request k v).1 = ((after (cs ++ .request k v :: ds)).request k w).1 ↔ v = w) ∧
    ((after cs).table k).toList = (asked k cs).eraseDups ∧
    ((after cs).request k v).1 = (asked k cs ++ [v]).eraseDups.idxOf v ∧
    ((after (cs ++ .request k v :: ds)).table k).get? ((after cs).request k v).1 = some v ∧
    (∀ p id, (after cs).pointers.find? p = some id ↔
      ∃ bs es, cs = bs ++ .request .pointer p :: es ∧ ((after bs).request .pointer p).1 = id) ∧
    (after cs).pointsToSets.size = (after cs).pointers.size ∧
    ∀ p, p ∉ asked .pointer cs →
      (after (cs ++ .request .pointer p :: ds)).pointsToSets[((after cs).request .pointer p).1]? =
        some (ds.foldl (fun s c => c.effect ((after cs).request .pointer p).1 s) ∅) := by
  -- in the end each id stands for its value
  have hv := get?_table_after cs (ds ++ [.request k w]) v
  have hw := get?_table_after (cs ++ .request k v :: ds) [] w
  rw [List.append_assoc, List.cons_append] at hw
  refine ⟨⟨fun h => ?_, ?_⟩, toList_table_after k cs, request_fst_eq_idxOf cs v, get?_table_after cs ds v,
    fun p id => find?_pointers_after, (after cs).size_pointsToSets, fun p hp => ?_⟩
  · rw [h, hw] at hv
    exact (Option.some.inj hv).symm
  · rintro rfl
    exact Interner.eq_of_get? hv hw
  · rw [after_append_cons]
    exact pointsToSets_calls (pointsToSets_after hp) ds

/-- Three requests, two of them for one pointer, and a change between them. -/
example :
    let calls : List ArenaCall := [.request .pointer (.var 0 1), .request .pointer (.staticField 2),
      .change 0 fun s => (s.put 5).2, .request .pointer (.var 0 1)]
    ((after calls).pointers.toList, (after calls).pointsToSets.toList.map IdSet.toList,
      (after calls).pointers.find? (.staticField 3)) =
        ([.var 0 1, .staticField 2], [[5], []], none) := by
  decide

end Arena

end PointsTo
