import Mathlib.Data.List.Nodup

/-!
# Values at their first occurrence

`List.eraseDups` keeps of every value in a list the first occurrence. A list to which values are added
when they are met, unless they are in it already, comes to the same (`eraseDups_of_steps`).
-/

namespace PointsTo

/-- The list with `x` at its end, unless `x` is in it already. -/
def insertNew {α : Type} [DecidableEq α] (xs : List α) (x : α) : List α :=
  if x ∈ xs then xs else xs ++ [x]

theorem mem_insertNew {α : Type} [DecidableEq α] {xs : List α} {x y : α} :
    y ∈ insertNew xs x ↔ y ∈ xs ∨ y = x := by
  rw [insertNew]
  split
  · rename_i hx
    exact ⟨Or.inl, fun h => h.elim id fun hy => hy ▸ hx⟩
  · rw [List.mem_append, List.mem_singleton]

theorem nodup_insertNew {α : Type} [DecidableEq α] {xs : List α} (h : xs.Nodup) (x : α) :
    (insertNew xs x).Nodup := by
  rw [insertNew]
  split
  · exact h
  · rename_i hx
    exact List.nodup_append_comm.1 (List.nodup_cons.2 ⟨hx, h⟩)

section

variable {α : Type} [BEq α] [LawfulBEq α]

theorem nodup_eraseDups (xs : List α) : xs.eraseDups.Nodup := by
  cases xs with
  | nil => simp
  | cons x xs =>
    rw [List.eraseDups_cons, List.nodup_cons]
    constructor
    · simp
    · exact nodup_eraseDups _
termination_by xs.length
decreasing_by
  rw [List.length_cons]
  exact Nat.lt_succ_of_le (List.length_filter_le ..)

variable [DecidableEq α]

/-- One more value counts if it has not occurred before. -/
theorem eraseDups_concat (xs : List α) (x : α) :
    (xs ++ [x]).eraseDups = insertNew xs.eraseDups x := by
  rw [List.eraseDups_append, insertNew]
  by_cases hx : x ∈ xs
  · simp [List.removeAll, hx]
  · simp [List.removeAll, hx, List.eraseDups_cons]

/-- If every step of a run inserts what its input holds, and nothing else, the list has the values of all
inputs at their first occurrence. -/
theorem eraseDups_of_steps {σ γ : Type} {step : σ → γ → σ} (held : σ → List α) {value? : γ → Option α}
    (hstep : ∀ s c, held (step s c) = (value? c).elim (held s) (insertNew (held s)))
    {s : σ} (xs : List α) (hs : held s = xs.eraseDups) (cs : List γ) :
    held (cs.foldl step s) = (xs ++ cs.filterMap value?).eraseDups := by
  induction cs generalizing s xs with
  | nil => rw [List.filterMap_nil, List.append_nil, List.foldl_nil, hs]
  | cons c cs ih =>
    have hc := hstep s c
    cases hv : value? c with
    | none =>
      rw [hv, Option.elim_none, hs] at hc
      rw [List.foldl_cons, ih _ hc, List.filterMap_cons_none hv]
    | some x =>
      rw [hv, Option.elim_some, hs, ← eraseDups_concat] at hc
      rw [List.foldl_cons, ih _ hc, List.filterMap_cons_some hv, List.append_assoc, List.singleton_append]

end

end PointsTo
