import Mathlib.Data.List.Perm.Subperm
import Mathlib.Data.List.TakeWhile

/-!
# Searching a finite graph in rounds

Both searches of the class hierarchy keep a list of what they have met and a queue of what they have
still to look at. A round drops from the queue what has been met, meets the next element and queues
its successors. Numbers below `n` are met once each, so `n + 1` rounds suffice to empty the queue.
-/

namespace PointsTo

/-- There are at most `n` different numbers below `n`. -/
theorem length_le_of_nodup {xs : List Nat} {n : Nat} (hx : xs.Nodup) (hlt : ∀ x ∈ xs, x < n) :
    xs.length ≤ n := by
  have hsub : xs ⊆ List.range n := fun x hx => List.mem_range.2 (hlt x hx)
  simpa using (List.Nodup.subperm hx hsub).length_le

/-- What a search keeps from round to round: nothing is met twice, and a successor of something met is
met or queued. -/
structure Search (n : Nat) (next : Nat → Nat → Prop) (met queue : List Nat) : Prop where
  nodup : met.Nodup
  lt : ∀ x ∈ met, x < n
  next : ∀ x ∈ met, ∀ y, next x y → y ∈ met ∨ y ∈ queue

namespace Search

variable {n : Nat} {next : Nat → Nat → Prop} {met queue rest : List Nat} {x y : Nat}

theorem start : Search n next [] queue := ⟨List.nodup_nil, by simp, by simp⟩

/-- A round takes something that has not been met. -/
theorem not_met_of_round (hround : queue.dropWhile (· ∈ met) = x :: rest) : x ∉ met := by
  have hhead := List.head_dropWhile_not (fun y => decide (y ∈ met)) (l := queue) (by simp [hround])
  simpa [hround] using hhead

theorem rest_subset_of_round (hround : queue.dropWhile (· ∈ met) = x :: rest) :
    x :: rest ⊆ queue := hround ▸ (List.dropWhile_sublist _).subset

/-- What has been met or queued before a round is so afterwards: only what was met is dropped. -/
theorem kept_of_round (hround : queue.dropWhile (· ∈ met) = x :: rest) (hy : y ∈ met ∨ y ∈ queue) :
    y ∈ met ++ [x] ∨ y ∈ rest := by
  rcases hy with hy | hy
  · exact Or.inl (List.mem_append_left _ hy)
  · rw [← List.takeWhile_append_dropWhile (p := fun y => decide (y ∈ met)) (l := queue), hround,
      List.mem_append, List.mem_cons] at hy
    rcases hy with hy | rfl | hy
    · exact Or.inl (List.mem_append_left _ (by simpa using List.mem_takeWhile_imp hy))
    · exact Or.inl (List.mem_append_right _ List.mem_cons_self)
    · exact Or.inr hy

/-- A round keeps the search going, if it queues the successors of what it meets. -/
theorem round (h : Search n next met queue) (hround : queue.dropWhile (· ∈ met) = x :: rest)
    (hx : x < n) {queue' : List Nat} (hrest : rest ⊆ queue') (hnext : ∀ y, next x y → y ∈ queue') :
    Search n next (met ++ [x]) queue' where
  nodup := List.nodup_append.2 ⟨h.nodup, List.pairwise_singleton _ _, by
    rintro a ha b hb rfl
    rw [List.mem_singleton.1 hb] at ha
    exact not_met_of_round hround ha⟩
  lt y hy := by
    rcases List.mem_append.1 hy with hy | hy
    · exact h.lt y hy
    · exact List.mem_singleton.1 hy ▸ hx
  next y hy z hz := by
    rcases List.mem_append.1 hy with hy | hy
    · exact (kept_of_round hround (h.next y hy z hz)).imp id fun hz => hrest hz
    · rw [List.mem_singleton.1 hy] at hz
      exact Or.inr (hnext z hz)

theorem length_le (h : Search n next met queue) : met.length ≤ n := length_le_of_nodup h.nodup h.lt

/-- Once everything queued has been met, the search is over. -/
theorem closed (h : Search n next met queue) (hdone : queue.dropWhile (· ∈ met) = []) :
    (∀ x, x ∈ met ∨ x ∈ queue → x ∈ met) ∧ ∀ x ∈ met, ∀ y, next x y → y ∈ met := by
  have hqueue : ∀ x ∈ queue, x ∈ met := by
    simpa using List.dropWhile_eq_nil_iff.1 hdone
  exact ⟨fun x hx => hx.elim id (hqueue x), fun x hx y hy => (h.next x hx y hy).elim id (hqueue y)⟩

end Search

end PointsTo
