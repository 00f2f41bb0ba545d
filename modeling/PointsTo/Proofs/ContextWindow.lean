import PointsTo.Proofs.ContextSuffix

/-!
# The window that a context keeps

Contexts are defined by what they keep, the last elements of a list. To keep them one has to say where they
start: how many elements stay, how many are passed over before them. A difference below zero, or a start
behind the end, would be a fault there (`minus?`, `startingAt?`). No limit leads to one, at any length of the
context (`appendInWindow?_eq`, `truncateInWindow?_eq`), and along a path of any length the elements that are
kept are a suffix of all there have been (`suffix_laws`).
-/

namespace PointsTo

namespace Context

/-- The difference, unless it is below zero. -/
def minus? (a b : Nat) : Option Nat := if b ≤ a then some (a - b) else none

/-- The elements from a position on, unless it is behind the end. -/
def startingAt? {α : Type} (start : Nat) (xs : List α) : Option (List α) :=
  if start ≤ xs.length then some (xs.drop start) else none

/-- `append` by the number of elements that are kept, the new one among them. -/
def appendInWindow? (c : Context) (e : ContextElement) (limit : Nat) : Option Context :=
  if limit = 0 then some ∅
  else do
    let keep := min (c.depth + 1) limit
    let skip ← minus? (c.depth + 1) keep
    pure ⟨c.elements.drop skip ++ [e]⟩

/-- `truncate` by the position of the first element that is kept. A context within the limit is kept from its
start, so this difference stops at zero. -/
def truncateInWindow? (c : Context) (limit : Nat) : Option Context := do
  pure ⟨← startingAt? (c.depth - limit) c.elements⟩

/-! ## Windows -/

theorem appendInWindow?_eq (c : Context) (e : ContextElement) (k : Nat) :
    c.appendInWindow? e k = some (c.append e k) := by
  rw [appendInWindow?]
  by_cases hzero : k = 0
  · rw [if_pos hzero, hzero, append_zero]
  · have hkeep : min (c.depth + 1) k ≤ c.depth + 1 := Nat.min_le_left _ _
    -- the window starts within the old elements, as the new one is always in it
    have hskip : c.depth + 1 - min (c.depth + 1) k ≤ c.elements.length := by
      rw [depth]
      omega
    have hstart : (c.elements ++ [e]).length - k = c.depth + 1 - min (c.depth + 1) k := by
      rw [List.length_append, List.length_singleton, depth]
      omega
    have hminus : minus? (c.depth + 1) (min (c.depth + 1) k) =
        some (c.depth + 1 - min (c.depth + 1) k) := if_pos hkeep
    rw [if_neg hzero, append, lastOf, hstart, List.drop_append_of_le_length hskip]
    show ((minus? (c.depth + 1) (min (c.depth + 1) k)).bind fun skip =>
      some (mk (c.elements.drop skip ++ [e]))) = _
    rw [hminus]
    rfl

theorem truncateInWindow?_eq (c : Context) (k : Nat) : c.truncateInWindow? k = some (c.truncate k) := by
  have hstart : c.depth - k ≤ c.elements.length := Nat.sub_le _ _
  rw [truncateInWindow?, startingAt?, if_pos hstart]
  rfl

theorem foldlM_appendInWindow? (c : Context) (es : List ContextElement) (k : Nat) :
    es.foldlM (fun c e => c.appendInWindow? e k) c = some (es.foldl (fun c e => c.append e k) c) := by
  simp only [appendInWindow?_eq]
  exact List.foldlM_pure

/-! ## Suffixes -/

/-- The elements of a context to which elements have been appended, at least one of them. -/
theorem elements_foldl_append {es : List ContextElement} (hne : es ≠ []) (c : Context) (k : Nat) :
    (es.foldl (fun c e => c.append e k) c).elements = lastOf k (c.elements ++ es) := by
  induction es generalizing c with
  | nil => exact absurd rfl hne
  | cons e es ih =>
    rw [List.foldl_cons]
    by_cases hlast : es = []
    · rw [hlast]
      rfl
    · rw [ih hlast, append, lastOf_lastOf_append, List.append_assoc]
      rfl

theorem truncate_append_comm {j k : Nat} (h : j ≤ k) (c : Context) (e : ContextElement) :
    (c.append e k).truncate j = (c.truncate j).append e j := by
  rw [truncate_append, append_truncate, Nat.min_eq_left h, Nat.min_eq_left (Nat.le_succ j)]

/-- To keep the last elements is to keep a suffix. Elements appended one after the other under one limit leave
the last ones of all, `k` of them if there are so many. Cutting to `j` after an element is appended is cutting
before it, and two cuts are the closer one. The windows behind all this start neither below zero nor behind
the end, at any limit. -/
theorem suffix_laws (c : Context) (e : ContextElement) (es : List ContextElement) (i j k : Nat) :
    (es ≠ [] → ∃ d, es.foldlM (fun c e => c.appendInWindow? e k) c = some d ∧
      es.foldl (fun c e => c.append e k) c = d ∧
      d.elements <:+ c.elements ++ es ∧ d.depth = min k (c.depth + es.length)) ∧
    (c.truncateInWindow? k = some (c.truncate k) ∧
      (c.truncate k).elements <:+ c.elements ∧ (c.truncate k).depth = min k c.depth) ∧
    (j ≤ k → (c.append e k).truncate j = (c.truncate j).append e j) ∧
    (c.truncate i).truncate j = c.truncate (min i j) := by
  refine ⟨fun hne => ⟨_, foldlM_appendInWindow? c es k, rfl, ?_, ?_⟩,
    ⟨truncateInWindow?_eq c k, lastOf_suffix k _, length_lastOf k _⟩,
    fun h => truncate_append_comm h c e, ?_⟩
  · rw [elements_foldl_append hne]
    exact lastOf_suffix k _
  · rw [depth, elements_foldl_append hne, length_lastOf, List.length_append]
    rfl
  · rw [truncate_truncate, Nat.min_comm]

/-- Under a limit of two, a context of one element to which three are appended is left with two of the four.
To cut to one after the first of them is appended is to cut before. -/
theorem suffix_laws_mixed :
    [.object 1, .object 2, .object 3] ≠ ([] : List ContextElement) ∧ 1 ≤ 2 ∧
    (∃ d, [.object 1, .object 2, .object 3].foldlM (fun c e => c.appendInWindow? e 2)
        (singleton (.object 0)) = some d ∧
      d.elements <:+ [.object 0, .object 1, .object 2, .object 3] ∧ d.depth = 2) ∧
    ((singleton (.object 0)).append (.object 1) 2).truncate 1 =
      ((singleton (.object 0)).truncate 1).append (.object 1) 1 := by
  obtain ⟨hpath, -, hcut, -⟩ :=
    suffix_laws (singleton (.object 0)) (.object 1) [.object 1, .object 2, .object 3] 0 1 2
  have hne : [.object 1, .object 2, .object 3] ≠ ([] : List ContextElement) := by decide
  have hle : 1 ≤ 2 := by decide
  obtain ⟨d, hd, -, hsuffix, hdepth⟩ := hpath hne
  exact ⟨hne, hle, ⟨d, hd, hsuffix, hdepth⟩, hcut hle⟩

end Context

end PointsTo
