/-!
# Checks

A check passes with nothing or fails with an error. Checks in sequence stop at the first failure, so the
order in which they are written is the order in which faults are reported. Main statements: a required
condition passes when it holds (`require_eq_ok_iff`), checks in sequence pass when both do
(`andThen_eq_ok_iff`), and a check of every member of a list passes when each member's does
(`forM_eq_ok_iff`).
-/

namespace PointsTo

variable {ε : Type}

/-- Fail with `e` unless `ok`. -/
def require (ok : Bool) (e : ε) : Except ε Unit := if ok then pure () else throw e

theorem require_eq_ok_iff {ok : Bool} {e : ε} : require ok e = .ok () ↔ ok = true := by
  cases ok <;> simp [require, pure, Except.pure, throw, throwThe, MonadExceptOf.throw]

theorem andThen_eq_ok_iff {first : Except ε Unit} {second : Unit → Except ε Unit} :
    (first >>= second) = .ok () ↔ first = .ok () ∧ second () = .ok () := by
  cases first <;> simp [bind, Except.bind]

theorem forM_eq_ok_iff {α : Type} {check : α → Except ε Unit} {xs : List α} :
    xs.forM check = .ok () ↔ ∀ x ∈ xs, check x = .ok () := by
  induction xs with
  | nil => simp [pure, Except.pure]
  | cons x xs ih => rw [List.forM, andThen_eq_ok_iff, ih, List.forall_mem_cons]

end PointsTo
