import PointsTo.Proofs.Sessions

/-!
# Nothing is ever taken back

Besides sessions, a solver offers single rules: a method can be made reachable, a flow edge or a call
edge can be added, and a receiver can be brought to a variable (`Operation`). Whatever is called in
whatever order, and also where it fails halfway, no id changes its meaning, no set loses an object, no
list loses or moves an element, and no counter falls (`operations_grow`).

No property of the state is needed for this, so ids that were never handed out are covered as well.
-/

namespace PointsTo.Solver

variable {setup : Setup} {order : WorklistOrder} {s t : State}

/-- Anything that can be called on a solver. -/
inductive Operation where
  | ask (r : Request)
  | reach (m : CSMethodId)
  | flow (source target : PointerId)
  | receive (c : ContextId) (v : VarId) (o : CSObjId)
  | call (kind : EdgeKind) (site : CSSiteId) (callee : CSMethodId) (d : Call)

/-- Call it. -/
def Operation.perform (setup : Setup) : Operation → SolveM Unit
  | .ask r => r.perform setup
  | .reach m => addReachable setup m
  | .flow source target => addFlow source target
  | .receive c v o => callsOn setup c v o
  | .call kind site callee d => connectCall setup kind site callee d

/-- The state of a new solver on which one operation after the other has been called. After an error it
goes on with the state left behind. -/
def operate (setup : Setup) (order : WorklistOrder) (ops : List Operation) : State :=
  ops.foldl (fun s op => after (op.perform setup) s) (.initial order)

theorem operate_concat (ops : List Operation) (op : Operation) :
    operate setup order (ops ++ [op]) = after (op.perform setup) (operate setup order ops) := by
  rw [operate, List.foldl_append]
  rfl

/-! ## Growing -/

/-- The set of a pointer is replaced by one that has all its objects. -/
theorem grows_spread (s : State) (i : PointerId) (fresh : PointsToSet) :
    s.Grows (s.spread i fresh) := by
  obtain ⟨w, hw, -⟩ := spread_eq s i fresh
  rw [hw]
  have hsets : ∀ j o, o ∈ s.arena.pointsTo j →
      o ∈ (s.arena.setPointsTo i ((s.pointsTo i).union fresh)).pointsTo j := by
    intro j o ho
    rw [Arena.pointsTo_setPointsTo]
    split
    · rename_i hij
      rw [← hij.1] at ho
      exact IdSet.mem_union.2 (Or.inl ho)
    · exact ho
  exact { State.Grows.refl s with
    arena := { Arena.Grows.refl s.arena with pointsTo := hsets }
    propagations := Nat.le_succ _ }

/-- Whatever a run does, its state grows. -/
theorem runFrame_grows : RunFrame State.Grows where
  refl := .refl
  trans := .trans
  mono _ h := h
  arena s _ hb _ := { State.Grows.refl s with arena := hb }
  arrive s i objects := (frame_adds.arrive s i objects).1
  flow s i j := (frame_adds.flow s i j).1
  call _ kind i j := (adds_addCall kind i j).1
  miss s := (frame_adds.miss s).1
  reach s j := (adds_reach s j).1
  spread := grows_spread
  pending s _ := { State.Grows.refl s with }
  worklist s _ := { State.Grows.refl s with arrivals := Nat.le_succ _ }

theorem grows_request (hset : setup.WellFormed) (r : Request) (s : State) :
    s.Grows (after (r.perform setup) s) := by
  have hR := runFrame_grows
  cases r with
  | seed batch => exact respects_seed hR.toFrame hR.reach (fun _ _ => grows_enter) batch s
  | step n =>
    have hstep := (respects_step hR hset n).bind hR.toFrame fun _ _ _ _ =>
      respects_pure (n := 0) hR.toFrame ()
    exact hstep s
  | run n => exact respects_run hR hset n s

theorem grows_operation (hset : setup.WellFormed) (op : Operation) (s : State) :
    s.Grows (after (op.perform setup) s) := by
  have hR := runFrame_grows.toFrame
  cases op with
  | ask r => exact grows_request hset r s
  | reach m => exact respects_addReachable hR runFrame_grows.reach m s
  | flow source target => exact respects_addFlow hR.linkFrame source target s
  | receive c v o => exact respects_callsOn hR hset c v o s
  | call kind site callee d => exact respects_connectCall hR.linkFrame kind site callee d s

/-- Every operation lets the state grow, whether it succeeds or fails and whatever the state is. So at
any later time all that was there is there still: the values of all ids, the members of all points-to
sets, the edges of both graphs, those of the call graph with their kinds and in their places, the order
of entries and of reachable methods, and counters that are no smaller. -/
theorem operations_grow {p : Program} (hp : p.validate = .ok ()) (selector : Selector) :
    (∀ (op : Operation) (s : State), s.Grows (after (op.perform (p.setup selector)) s)) ∧
    ∀ (order : WorklistOrder) (ops more : List Operation),
      (operate (p.setup selector) order ops).Grows (operate (p.setup selector) order (ops ++ more)) := by
  have hset : (p.setup selector).WellFormed := Program.wellFormed_setup hp
  refine ⟨fun op s => grows_operation hset op s, fun order ops more => ?_⟩
  induction more using List.reverseRecOn with
  | nil =>
    rw [List.append_nil]
    exact .refl _
  | append_singleton more op ih =>
    rw [← List.append_assoc, operate_concat]
    exact ih.trans (grows_operation hset op _)

/-- A call of the small program's `main` that passes an argument. -/
def Sample.wrongCall : Call :=
  { mode := .virtual, target := ⟨0, "A id(A)"⟩, receiver := some 0, args := [0], result := some 1 }

def Sample.operations : List Operation := [.ask (.seed [0]), .ask (.step 9), .flow 0 5, .reach 1]

/-- The call cannot be installed, and what was there before it is there when the run has gone on. -/
theorem operations_grow_sample : Sample.program.validate = .ok () ∧
    Ends (connectCall (Sample.program.setup .insensitive) .virtual 0 0 Sample.wrongCall)
      (operate (Sample.program.setup .insensitive) .lifo Sample.operations)
      (fun _ _ => False) (fun _ _ => True) ∧
    (operate (Sample.program.setup .insensitive) .lifo Sample.operations).Grows
      (operate (Sample.program.setup .insensitive) .lifo (Sample.operations ++
        [.call .virtual 0 0 Sample.wrongCall, .receive 0 0 0, .ask (.run 20)])) :=
  ⟨Sample.validate_program, by decide +kernel,
    (operations_grow Sample.validate_program .insensitive).2 .lifo Sample.operations _⟩

end PointsTo.Solver
