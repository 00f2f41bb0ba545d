import PointsTo.Check
import PointsTo.Config.Error
import PointsTo.Context.Selector
import PointsTo.Solver.Worklist
import PointsTo.Text.Blank

/-!
# Configuring an analysis

A configuration names a context policy and how long contexts may get, the order of the worklist, and
methods to enter besides the program's entry. Presets are three common choices.

Names of policies and presets are read without regard to the case of ASCII letters. No other character
has a lower-case form that is a letter of one of these names, so this is all there is to it.
-/

namespace PointsTo

/-- What contexts are made of. -/
inductive ContextPolicy where
  /-- One context for everything. -/
  | insensitive
  | callSite
  /-- Receiver objects. -/
  | object
  /-- Classes that allocate receivers. -/
  | type
deriving DecidableEq, Inhabited

/-- A common choice of policy and depths. -/
inductive Preset where
  | fast
  /-- One receiver object, no heap contexts. -/
  | balanced
  /-- Two receiver objects, heap contexts of one. -/
  | thorough
deriving DecidableEq, Inhabited

/-- A configuration. -/
structure Config where
  /-- What contexts are made of. -/
  policy : ContextPolicy
  /-- How long the context of a method may be. -/
  contextDepth : Nat
  /-- How long the context of an object may be. -/
  heapContextDepth : Nat
  /-- Which arrival the worklist gives out next. -/
  worklistOrder : WorklistOrder
  /-- Methods to enter besides the program's entry, by written name. -/
  extraEntries : List String
deriving DecidableEq

namespace ContextPolicy

/-- The name of the policy. -/
def name : ContextPolicy → String
  | insensitive => "insensitive"
  | callSite => "call-site"
  | object => "object"
  | type => "type"

/-- All policies, in their order. -/
def all : List ContextPolicy := [insensitive, callSite, object, type]

/-- The policy of a name or of one of its short forms. -/
def ofName (s : String) : Except ConfigError ContextPolicy :=
  match s.toLower with
  | "insensitive" | "ci" => pure insensitive
  | "call-site" | "callsite" | "cfa" => pure callSite
  | "object" | "obj" => pure object
  | "type" => pure type
  | _ => throw (.unknownPolicy s (all.map name))

/-- The policy used where none is named. -/
def standard : ContextPolicy := object

end ContextPolicy

namespace Preset

/-- The name of the preset. -/
def name : Preset → String
  | fast => "fast"
  | balanced => "balanced"
  | thorough => "thorough"

/-- All presets, in their order. -/
def all : List Preset := [fast, balanced, thorough]

/-- The preset of a name. -/
def ofName (s : String) : Except ConfigError Preset :=
  match s.toLower with
  | "fast" => pure fast
  | "balanced" => pure balanced
  | "thorough" => pure thorough
  | _ => throw (.unknownPreset s)

/-- The preset used where none is named. -/
def standard : Preset := balanced

/-- The settings of the preset. -/
def config : Preset → Config
  | fast => ⟨.insensitive, 0, 0, .fifo, []⟩
  | balanced => ⟨.object, 1, 0, .fifo, []⟩
  | thorough => ⟨.object, 2, 1, .fifo, []⟩

end Preset

namespace WorklistOrder

/-- The name of the order. -/
def name : WorklistOrder → String
  | fifo => "fifo"
  | lifo => "lifo"

/-- Both orders. -/
def all : List WorklistOrder := [fifo, lifo]

end WorklistOrder

namespace Config

/-- The settings used where nothing is set. -/
def standard : Config := Preset.standard.config

instance : Inhabited Config := ⟨standard⟩

/-- The settings of an analysis without contexts. -/
def insensitive : Config := Preset.fast.config

/-- The largest depth of contexts. -/
def maxDepth : Nat := 8

/-- Refuse depths that are out of range and blank entries. -/
def validate (c : Config) : Except ConfigError Unit := do
  require (c.contextDepth ≤ maxDepth) (.range "context_depth" c.contextDepth.repr "0" maxDepth.repr
    "Deep contexts multiply cloned methods without a matching precision gain")
  require (c.heapContextDepth ≤ c.contextDepth)
    (.range "heap_context_depth" c.heapContextDepth.repr "0" c.contextDepth.repr
      "Heap contexts are suffixes of method contexts and cannot be longer")
  require (c.extraEntries.all (!Text.isBlank ·))
    (.validation "extra_entries must not contain empty method names")

/-- The settings in short. -/
def describe (c : Config) : String :=
  match c.policy with
  | .insensitive => "context-insensitive"
  | policy => s!"{c.contextDepth}-{policy.name} (heap {c.heapContextDepth})"

/-- The selector that the settings ask for. -/
def selector (c : Config) : Selector :=
  match c.policy with
  | .insensitive => .insensitive
  | .callSite => .callSite c.contextDepth c.heapContextDepth
  | .object => .objectSensitive c.contextDepth c.heapContextDepth
  | .type => .typeSensitive c.contextDepth c.heapContextDepth

end Config

end PointsTo
