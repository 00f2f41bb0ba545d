import PointsTo.Config.Error
import PointsTo.Program.Error

/-!
# Why an analysis ends without an answer

The last two causes never arise from a checked program and a selector with finitely many contexts:
an id that was never handed out, and fuel that runs out.
-/

namespace PointsTo

/-- Why an analysis ends without an answer. -/
inductive AnalysisError where
  | missingEntry
  /-- No method has the name of a configured entry. -/
  | unknownEntry (name : String)
  /-- A call passes another number of arguments than its callee has parameters. -/
  | arityMismatch (site : String) (callee : String) (args params : Nat)
  /-- The heap has no object for an allocation. -/
  | missingAllocation (site : String)
  /-- The program is at fault. -/
  | program (e : ProgramError)
  /-- The configuration is at fault. -/
  | config (e : ConfigError)
  /-- An id names nothing. -/
  | unknownId
  /-- The run was given too little fuel. -/
  | outOfFuel
deriving DecidableEq

namespace AnalysisError

/-- The report of the error. -/
def message : AnalysisError → String
  | missingEntry => "Program has no entry method"
  | unknownEntry name => s!"Unknown entry method '{name}'"
  | arityMismatch site callee args params =>
    s!"Arity mismatch at {site}: {args} argument(s) passed to {callee}, which declares {params} parameter(s)"
  | missingAllocation site => s!"No abstract object for allocation site {site}"
  | program e => e.message
  | config e => s!"Configuration error: {e.message}"
  | unknownId => "An id names nothing"
  | outOfFuel => "The analysis ran out of fuel"

end AnalysisError

end PointsTo
