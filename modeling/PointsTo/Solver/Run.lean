import PointsTo.Solver.Rules

/-!
# Running the solver

`advance` does one thing: wire one waiting method, else handle one arrival, else report that nothing is
left. `step` repeats it until one arrival has been handled, `run` until nothing is left. Whether a run
ends depends on the selector, which may invent new contexts for ever; so both take fuel, and running
out of it is an error of its own.
-/

namespace PointsTo.Solver

/-- What was done. -/
inductive Progress where
  | wired
  | handled
  /-- Nothing was left to do. -/
  | idle
deriving DecidableEq

/-- Do one thing: waiting methods come before arrivals. -/
def advance (setup : Setup) : SolveM Progress := do
  match (← get).pending.popFront with
  | some (m, pending) =>
    modify ({ · with pending })
    addReachable setup m
    pure .wired
  | none =>
    match (← get).worklist.pop with
    | some (a, worklist) =>
      modify fun s =>
        { s with worklist, stats := { s.stats with arrivals := s.stats.arrivals + 1 } }
      handle setup a
      pure .handled
    | none => pure .idle

/-- Wire all waiting methods and handle one arrival. The answer is whether there was one. -/
def step (setup : Setup) : (fuel : Nat) → SolveM Bool
  | 0 => throw .outOfFuel
  | n + 1 => do
    match ← advance setup with
    | .wired => step setup n
    | .handled => pure true
    | .idle => pure false

/-- Go on until nothing is left to do. -/
def run (setup : Setup) : (fuel : Nat) → SolveM Unit
  | 0 => throw .outOfFuel
  | n + 1 => do
    match ← advance setup with
    | .wired | .handled => run setup n
    | .idle => pure ()

/-- Make the entry methods reachable under the selector's entry context. -/
def seed (setup : Setup) (entries : List MethodId) : SolveM Unit := do
  if entries.isEmpty then throw .missingEntry
  else
    let context ← contextId setup.selector.entryContext
    entries.forM fun m => do
      let entry ← methodId ⟨context, m⟩
      modify fun s => { s with callGraph := s.callGraph.addEntry entry }
      addReachable setup entry

/-- Seed the entries and go on until nothing is left to do. -/
def solve (setup : Setup) (fuel : Nat) (entries : List MethodId) : SolveM Unit := do
  seed setup entries
  run setup fuel

/-- Fuel for more steps than any run can take in practice. -/
def ampleFuel : Nat := Nat.pow 2 62

end PointsTo.Solver
