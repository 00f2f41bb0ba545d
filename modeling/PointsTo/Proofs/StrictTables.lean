import PointsTo.Program.Error
import PointsTo.Check

/-!
# Tables that must have what is asked of them

The look-ups of the analyses answer with an `Option`. A machine that is sure of what it looks up does without,
and halts if the position is not there (`Halt.outside`). That it never does is seen by keeping it in step with
checks that have no such halt (`andThen_eq_answer`): each step may use what the checks before it say.
-/

namespace PointsTo

/-- What keeps a machine from going on. -/
inductive Halt where
  /-- It has refused the program. -/
  | refused (e : ProgramError)
  /-- It asked a table for a position that the table does not have. -/
  | outside
  /-- It has had all the turns that it was given. -/
  | unfinished
deriving DecidableEq

/-- The answer of a check, as that of a machine. -/
def answer {α : Type} (x : Except ProgramError α) : Except Halt α := x.mapError .refused

/-- The entry at a position. -/
def lookUp {α : Type} (xs : Array α) (i : Nat) : Except Halt α :=
  match xs[i]? with
  | some x => pure x
  | none => throw .outside

/-- Change the entry at a position. -/
def change {α : Type} (xs : Array α) (i : Nat) (f : α → α) : Except Halt (Array α) :=
  if i < xs.size then pure (xs.modify i f) else throw .outside

/-- Refuse the program unless `ok`. The report may take look-ups of its own. -/
def demand (ok : Bool) (report : Except Halt ProgramError) : Except Halt Unit :=
  if ok then pure () else do throw (.refused (← report))

/-- The table with `f i` at each position `i` below `n`. -/
def tabulate {α : Type} (n : Nat) (f : Nat → α) : Array α := ((List.range n).map f).toArray

section

variable {α β : Type} {xs : Array α} {i n : Nat} {x : α} {f g : Nat → α}

/-! ## Positions that are there -/

theorem lookUp_eq (h : xs[i]? = some x) : lookUp xs i = .ok x := by
  rw [lookUp, h]
  rfl

theorem change_eq {f : α → α} (h : i < xs.size) : change xs i f = .ok (xs.modify i f) := by
  rw [change, if_pos h]
  rfl

theorem lookUp_append (before after : List α) (x : α) :
    lookUp (before ++ x :: after).toArray before.length = .ok x := lookUp_eq (by simp)

theorem change_append (f : α → α) (before after : List α) (x : α) :
    change (before ++ x :: after).toArray before.length f = .ok (before ++ f x :: after).toArray := by
  have hmodify : (before ++ x :: after).modify before.length f = before ++ f x :: after := by
    induction before with
    | nil => rfl
    | cons b before ih => rw [List.cons_append, List.length_cons, List.modify_succ_cons, ih, List.cons_append]
  rw [change_eq (by simp), List.modify_toArray, hmodify]

theorem size_tabulate : (tabulate n f).size = n := by
  rw [tabulate, List.size_toArray, List.length_map, List.length_range]

theorem lookUp_tabulate (h : i < n) : lookUp (tabulate n f) i = .ok (f i) := by
  apply lookUp_eq
  simp [tabulate, h]

/-- A change at one position leaves the other entries as they are. -/
theorem change_tabulate {h : α → α} (hi : i < n) (hnew : g i = h (f i)) (hold : ∀ j, j ≠ i → g j = f j) :
    change (tabulate n f) i h = .ok (tabulate n g) := by
  rw [change_eq (size_tabulate ▸ hi), Except.ok.injEq]
  apply Array.ext
  · rw [Array.size_modify, size_tabulate, size_tabulate]
  · intro j _ _
    simp only [tabulate, List.getElem_toArray, Array.getElem_modify, List.getElem_map, List.getElem_range]
    by_cases hij : i = j
    · rw [if_pos hij, ← hij, hnew]
    · rw [if_neg hij, hold j (Ne.symm hij)]

theorem replicate_eq_tabulate (h : ∀ i, f i = x) : Array.replicate n x = tabulate n f := by
  apply Array.ext
  · rw [Array.size_replicate, size_tabulate]
  · intro i _ _
    simp [tabulate, h]

/-! ## Machines in step with checks -/

theorem answer_ne_outside {x : Except ProgramError α} : answer x ≠ .error .outside := by
  cases x <;> exact nofun

theorem demand_eq {ok : Bool} {report : Except Halt ProgramError} {e : ProgramError}
    (h : report = .ok e) : demand ok report = answer (require ok e) := by
  cases ok with
  | true => rfl
  | false =>
    rw [h]
    rfl

/-- What follows a check needs to be in step only if the check passes. -/
theorem andThen_eq_answer {first : Except ProgramError Unit} {first' : Except Halt Unit}
    {second : Unit → Except ProgramError β} {second' : Unit → Except Halt β}
    (hfirst : first' = answer first) (hsecond : first = .ok () → second' () = answer (second ())) :
    (first' >>= second') = answer (first >>= second) := by
  rw [hfirst]
  cases first with
  | error e => rfl
  | ok => exact hsecond rfl

theorem forM_eq_answer {check : α → Except ProgramError Unit} {check' : α → Except Halt Unit}
    {xs : List α} (h : ∀ x ∈ xs, check' x = answer (check x)) :
    xs.forM check' = answer (xs.forM check) := by
  induction xs with
  | nil => rfl
  | cons x xs ih =>
    apply andThen_eq_answer (h x List.mem_cons_self)
    intro _
    exact ih fun y hy => h y (List.mem_cons_of_mem x hy)

/-- A fold whose state after a list is known from the list. -/
theorem foldlM_eq_ok {ε : Type} (step : β → α → Except ε β) (state : List α → β) {xs : List α}
    (h : ∀ x ∈ xs, ∀ done, step (state done) x = .ok (state (done ++ [x]))) (done : List α) :
    xs.foldlM step (state done) = .ok (state (done ++ xs)) := by
  induction xs generalizing done with
  | nil =>
    rw [List.append_nil]
    rfl
  | cons x xs ih =>
    rw [List.foldlM_cons, h x List.mem_cons_self done]
    have hrest := ih (fun y hy => h y (List.mem_cons_of_mem x hy)) (done ++ [x])
    rwa [List.append_assoc] at hrest

/-- A fold none of whose steps goes wrong. -/
theorem exists_foldlM_eq_ok {ε : Type} {step : β → α → Except ε β} {xs : List α}
    (h : ∀ x ∈ xs, ∀ b, ∃ c, step b x = .ok c) (b : β) : ∃ c, xs.foldlM step b = .ok c := by
  induction xs generalizing b with
  | nil => exact ⟨b, rfl⟩
  | cons x xs ih =>
    obtain ⟨c, hc⟩ := h x List.mem_cons_self b
    rw [List.foldlM_cons, hc]
    exact ih (fun y hy => h y (List.mem_cons_of_mem x hy)) c

/-! ## Machines that are given more turns -/

/-- The answer `x` is that there were too few turns, or else it is `y`. -/
def OrUnfinished (x y : Except Halt α) : Prop := x = .error .unfinished ∨ x = y

theorem OrUnfinished.bind {x y : Except Halt α} {next next' : α → Except Halt β} (h : OrUnfinished x y)
    (hnext : ∀ a, OrUnfinished (next a) (next' a)) : OrUnfinished (x >>= next) (y >>= next') := by
  rcases h with rfl | rfl
  · exact Or.inl rfl
  · cases x with
    | error e => exact Or.inr rfl
    | ok a => exact hnext a

theorem OrUnfinished.foldlM {step step' : β → α → Except Halt β}
    (h : ∀ b a, OrUnfinished (step b a) (step' b a)) (xs : List α) (b : β) :
    OrUnfinished (xs.foldlM step b) (xs.foldlM step' b) := by
  induction xs generalizing b with
  | nil => exact Or.inr rfl
  | cons x xs ih =>
    rw [List.foldlM_cons, List.foldlM_cons]
    exact (h b x).bind ih

end

end PointsTo
