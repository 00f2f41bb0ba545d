import PointsTo.Config.Basic
import PointsTo.Program.Lookup
import PointsTo.Solver.Run

/-!
# Analysing a program

`analyze` checks configuration and program, finds the entry methods, and runs the solver to the end.
What it computed is a `Solution`.
-/

namespace PointsTo

/-- What a finished analysis computed. -/
structure Solution where
  selectorName : String
  heap : Heap
  state : State

/-- The program's entry and the configured ones, each once. -/
def entryMethods (c : Config) (p : IndexedProgram) : Except AnalysisError (List MethodId) := do
  let extra ← c.extraEntries.mapM fun name =>
    match p.methodNamed? name with
    | some m => pure m
    | none => throw (.unknownEntry name)
  let entries := (p.entry.toList ++ extra).eraseDups
  if entries.isEmpty then throw .missingEntry else pure entries

/-- Run the solver from the given entries. -/
def solveFrom (setup : Setup) (order : WorklistOrder) (entries : List MethodId) :
    Except AnalysisError Solution :=
  match Solver.solve setup Solver.ampleFuel entries (.initial order) with
  | .ok _ state => pure { selectorName := setup.selector.name, heap := setup.heap, state }
  | .error e _ => throw e

/-- Analyse a program, with a selector other than the configured one if `custom` gives one. -/
def analyze (c : Config) (custom : Option Selector) (p : IndexedProgram) :
    Except AnalysisError Solution := do
  c.validate.mapError .config
  p.validate.mapError .program
  p.ensureFresh.mapError .program
  let entries ← entryMethods c p
  let setup : Setup := {
    program := p
    selector := custom.getD c.selector
    heap := .ofProgram p.toProgram }
  solveFrom setup c.worklistOrder entries

end PointsTo
