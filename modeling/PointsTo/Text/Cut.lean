/-!
# Cutting text at a separator

`cutFirst` cuts at the first place where a separator stands, `cutLast` at the last place where a
character stands. Both drop the separator and keep everything else (`append_of_cutFirst`,
`append_of_cutLast`), and nothing before the first or behind the last place is a separator
(`not_infix_of_cutFirst`, `cutLast_append`).
-/

namespace PointsTo.Text

/-- What stands before and behind the first occurrence of `sep`. -/
def cutFirst (sep : List Char) : List Char → Option (List Char × List Char)
  | [] => if sep = [] then some ([], []) else none
  | c :: cs =>
    if sep.isPrefixOf (c :: cs) then some ([], (c :: cs).drop sep.length)
    else (cutFirst sep cs).map fun (before, behind) => (c :: before, behind)

/-- What stands before and behind the last `sep`. -/
def cutLast (sep : Char) : List Char → Option (List Char × List Char)
  | [] => none
  | c :: cs =>
    match cutLast sep cs with
    | some (before, behind) => some (c :: before, behind)
    | none => if c = sep then some ([], cs) else none

theorem append_of_cutFirst {sep s a b : List Char} (h : cutFirst sep s = some (a, b)) :
    s = a ++ sep ++ b := by
  induction s generalizing a b with
  | nil =>
    simp only [cutFirst] at h
    split at h
    · rename_i hs
      cases h
      simp [hs]
    · cases h
  | cons c cs ih =>
    simp only [cutFirst] at h
    split at h
    · rename_i hp
      cases h
      obtain ⟨t, ht⟩ := List.isPrefixOf_iff_prefix.1 hp
      rw [← ht]
      simp
    · obtain ⟨⟨x, y⟩, hxy, he⟩ := Option.map_eq_some_iff.1 h
      cases he
      simp [ih hxy]

/-- No separator stands before the cut. -/
theorem not_infix_of_cutFirst {sep s a b : List Char} (hsep : sep ≠ [])
    (h : cutFirst sep s = some (a, b)) : ¬sep <:+: a := by
  induction s generalizing a b with
  | nil => simp [cutFirst, hsep] at h
  | cons c cs ih =>
    have hs := append_of_cutFirst h
    simp only [cutFirst] at h
    split at h
    · cases h
      simpa using hsep
    · rename_i hp
      obtain ⟨⟨x, y⟩, hxy, he⟩ := Option.map_eq_some_iff.1 h
      cases he
      rw [List.infix_cons_iff]
      rintro (hstart | hinfix)
      · refine hp (List.isPrefixOf_iff_prefix.2 ?_)
        rw [hs, List.append_assoc]
        exact hstart.trans (List.prefix_append _ _)
      · exact ih hxy hinfix

theorem exists_cutFirst (sep a b : List Char) : ∃ x, cutFirst sep (a ++ sep ++ b) = some x := by
  induction a with
  | nil =>
    cases sep with
    | nil => cases b <;> simp [cutFirst]
    | cons d ds => simp [cutFirst]
  | cons c cs ih =>
    obtain ⟨x, hx⟩ := ih
    simp only [List.cons_append, cutFirst]
    split
    · exact ⟨_, rfl⟩
    · rw [hx]
      exact ⟨_, rfl⟩

theorem append_of_cutLast {sep : Char} {s a b : List Char} (h : cutLast sep s = some (a, b)) :
    s = a ++ sep :: b := by
  induction s generalizing a b with
  | nil => cases h
  | cons c cs ih =>
    simp only [cutLast] at h
    cases hc : cutLast sep cs with
    | some p =>
      simp only [hc, Option.some.injEq, Prod.mk.injEq] at h
      obtain ⟨rfl, rfl⟩ := h
      rw [ih hc]
      rfl
    | none =>
      simp only [hc] at h
      split at h
      · rename_i hs
        cases h
        simp [hs]
      · cases h

theorem cutLast_eq_none {sep : Char} {s : List Char} (h : sep ∉ s) : cutLast sep s = none := by
  induction s with
  | nil => rfl
  | cons c cs ih =>
    simp only [List.mem_cons, not_or] at h
    rw [cutLast, ih h.2]
    simp [Ne.symm h.1]

theorem cutLast_append {sep : Char} {a b : List Char} (h : sep ∉ b) :
    cutLast sep (a ++ sep :: b) = some (a, b) := by
  induction a with
  | nil => simp [cutLast, cutLast_eq_none h]
  | cons c cs ih => simp [cutLast, ih]

end PointsTo.Text
