import PointsTo.Text.EditDistance

/-!
# What can be wrong with a configuration

Each fault is a constructor that holds what the report names; `ConfigError.message` is the wording.
-/

namespace PointsTo

/-- Why a configuration is refused. -/
inductive ConfigError where
  /-- A setting is outside its range. -/
  | range (setting value low high hint : String)
  | missingVersion
  /-- The settings have a version that is not supported. -/
  | unsupportedVersion (found : Nat) (supported : List Nat)
  | unknownPreset (name : String)
  /-- There is no policy of that name among the valid ones. -/
  | unknownPolicy (name : String) (valid : List String)
  /-- Any other check fails. -/
  | validation (text : String)
  | notText
  /-- The text is no settings document. -/
  | notSettings
deriving DecidableEq

namespace ConfigError

/-- The hint that names the valid policy closest to the unknown one. -/
def suggestion (name : String) (valid : List String) : String :=
  match Text.closest? name valid with
  | some closest => s!"Did you mean '{closest}'?"
  | none => "No valid values available"

/-- The report of the fault. -/
def message : ConfigError → String
  | range setting value low high hint =>
    s!"Invalid range for field '{setting}': {value} not in {low}..={high}. {hint}"
  | missingVersion =>
    "Missing 'version' field in configuration file. Add 'version: 1' to the top of your YAML file."
  | unsupportedVersion found supported =>
    let versions := ", ".intercalate (supported.map Nat.repr)
    s!"Unsupported configuration version {found}. Supported versions: {versions}"
  | unknownPreset name =>
    s!"Unknown preset '{name}'. Valid presets: fast, balanced, thorough"
  | unknownPolicy name valid => s!"Unknown context policy '{name}'. {suggestion name valid}"
  | validation text => s!"Validation error: {text}"
  | notText => "IO error: the file is not UTF-8 text"
  | notSettings => "YAML parsing error: the text is not a settings document"

end ConfigError

end PointsTo
