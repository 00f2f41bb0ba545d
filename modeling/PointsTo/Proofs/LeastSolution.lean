import PointsTo.Proofs.Runs

/-!
# A run computes the least solution

`solve_complete` says that a run that ends well misses nothing: what it has found satisfies every rule of
the analysis. `visits_derivable` says that no run ever invents anything: at every moment, also after an
error, everything that a state has found and everything that still waits belongs to every family of
facts closed under the rules. Together they make what a run finds the least solution.
-/

namespace PointsTo.Solver

variable {p : Program}

theorem ne_nil_of_solve {setup : Setup} {n : Nat} {entries : List MethodId} {s t : State}
    (h : solve setup n entries s = .ok () t) : entries ≠ [] := by
  rintro rfl
  cases h

/-- The outcome of a run that ends well. -/
theorem outcome_of_solve {setup : Setup} (hset : setup.WellFormed) {entries : List MethodId}
    {order : WorklistOrder} {n : Nat} {s : State}
    (h : solve setup n entries (.initial order) = .ok () s) :
    s.Sound setup (Derivable setup entries) ∧ s.Counted setup ∧ Complete setup entries s.Found := by
  have hends : Ends (solve setup n entries) (.initial order) _ _ :=
    ends_solve hset closed_derivable n (ne_nil_of_solve h)
  exact hends.ok_of_eq h

/-- A run that ends well finds what is derivable. -/
theorem found_iff_derivable {setup : Setup} (hset : setup.WellFormed) {entries : List MethodId}
    {order : WorklistOrder} {n : Nat} {s : State}
    (h : solve setup n entries (.initial order) = .ok () s) {f : Fact} :
    s.Found f ↔ Derivable setup entries f := by
  obtain ⟨hsound, -, hcomplete⟩ := outcome_of_solve hset h
  constructor
  · intro hf
    exact hsound.knows f (Or.inl hf)
  · intro hf
    exact hcomplete.closed.of_derivable hf

/-- What a run that ends well has found belongs to every closed family. -/
theorem closed_of_found {setup : Setup} (hset : setup.WellFormed) {entries : List MethodId}
    {F : Fact → Prop} (hF : Closed setup entries F) {order : WorklistOrder} {n : Nat} {s : State}
    (h : solve setup n entries (.initial order) = .ok () s) {f : Fact} (hf : s.Found f) : F f :=
  hF.of_derivable ((found_iff_derivable hset h).1 hf)

/-- Whatever a run that ends well has found misses nothing, for every checked program, every selector,
both orders and all entries. -/
theorem solve_complete (hp : p.validate = .ok ()) (selector : Selector) (order : WorklistOrder)
    (entries : List MethodId) (n : Nat) (s : State)
    (h : solve (p.setup selector) n entries (.initial order) = .ok () s) :
    Complete (p.setup selector) entries s.Found := by
  have hset : (p.setup selector).WellFormed := Program.wellFormed_setup hp
  exact (outcome_of_solve hset h).2.2

/-- The small program is solved, and its solution misses nothing. -/
theorem solve_complete_sample : ∃ s,
    solve (Sample.program.setup (.callSite 1 1)) 20 [0] (.initial .lifo) = .ok () s ∧
      Complete (Sample.program.setup (.callSite 1 1)) [0] s.Found := by
  obtain ⟨⟨⟩, s, hs⟩ := exists_eq_ok (by decide +kernel :
    Ends (solve (Sample.program.setup (.callSite 1 1)) 20 [0]) (.initial .lifo)
      (fun _ _ => True) fun _ _ => False)
  exact ⟨s, hs, solve_complete Sample.validate_program _ _ _ _ _ hs⟩

/-- The state that an action leaves behind, whether it ends well or not. -/
def after {α : Type} (x : SolveM α) (s : State) : State :=
  match x s with
  | .ok _ t => t
  | .error _ t => t

/-- The states that a run visits that is started from the entries and continued step by step, whatever
fuel a step is given and also after errors. -/
inductive Visits (setup : Setup) (entries : List MethodId) (order : WorklistOrder) : State → Prop where
  | start : Visits setup entries order (.initial order)
  | seed : Visits setup entries order (after (seed setup entries) (.initial order))
  | step {s : State} (n : Nat) (h : Visits setup entries order s) :
      Visits setup entries order (after (step setup n) s)

/-- What holds of every state that an action ends in holds of the state it leaves behind. -/
theorem Ends.after {α : Type} {x : SolveM α} {s : State} {P : State → Prop}
    {ok : α → State → Prop} {failed : AnalysisError → State → Prop} (h : Ends x s ok failed)
    (hok : ∀ a t, ok a t → P t) (hfailed : ∀ e t, failed e t → P t) : P (after x s) := by
  unfold Ends at h
  unfold Solver.after
  cases hx : x s with
  | ok a t =>
    rw [hx] at h
    exact hok a t h
  | error e t =>
    rw [hx] at h
    exact hfailed e t h

/-- Every state that a run visits is sound for every closed family. -/
theorem Visits.sound {setup : Setup} (hset : setup.WellFormed) {entries : List MethodId}
    {order : WorklistOrder} {F : Fact → Prop} (hF : Closed setup entries F) {s : State}
    (h : Visits setup entries order s) : s.Sound setup F := by
  induction h with
  | start => exact sound_initial hF
  | seed =>
    have hs : (State.initial order).Sound setup F := sound_initial hF
    by_cases hne : entries = []
    · rw [hne]
      exact hs
    · exact (ends_seed hset hF hs hne).after (fun _ _ h => h.1.sound) fun _ _ h => h.1
  | step n _ ih =>
    exact (ends_step hset hF n ih).after (fun _ _ h => h.1.sound) fun _ _ h => h.1

/-- In every state that a run visits the tables are in order, and everything found or waiting belongs to
every family closed under the rules. A run that ends well finds exactly what belongs to all of them. -/
theorem visits_derivable (hp : p.validate = .ok ()) (selector : Selector) (order : WorklistOrder)
    (entries : List MethodId) :
    (∀ s, Visits (p.setup selector) entries order s → s.WellFormed ∧
      ∀ f, s.Knows f → ∀ F, Closed (p.setup selector) entries F → F f) ∧
    ∀ n s, solve (p.setup selector) n entries (.initial order) = .ok () s →
      ∀ f, s.Found f ↔ ∀ F, Closed (p.setup selector) entries F → F f := by
  have hset : (p.setup selector).WellFormed := Program.wellFormed_setup hp
  constructor
  · intro s hs
    refine ⟨(hs.sound hset closed_derivable).wellFormed, ?_⟩
    intro f hf F hF
    exact (hs.sound hset hF).knows f hf
  · intro n s hs f
    rw [found_iff_derivable hset hs]
    exact derivable_iff

/-- The small program passes its check, so no run on it invents anything. -/
theorem visits_derivable_sample : Sample.program.validate = .ok () ∧
    ∀ s, Visits (Sample.program.setup (.callSite 1 1)) [0] .fifo s →
      ∀ f, s.Knows f → Derivable (Sample.program.setup (.callSite 1 1)) [0] f := by
  refine ⟨Sample.validate_program, ?_⟩
  intro s hs f hf
  have hall := (visits_derivable Sample.validate_program (.callSite 1 1) .fifo [0]).1 s hs
  exact hall.2 f hf _ closed_derivable

end PointsTo.Solver
