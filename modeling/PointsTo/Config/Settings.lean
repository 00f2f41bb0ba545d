import PointsTo.Config.Basic
import PointsTo.Yaml.Printer
import PointsTo.Yaml.Reader

/-!
# Settings documents

A configuration may be kept in a YAML document with up to three keys: `version`, which must be there and
be `1`, `preset`, and `pta`. The configuration under `pta` counts if there is one, and that of the preset
otherwise; settings left out under `pta` are the standard ones. A preset that is named must exist even if
it does not count.

```
version: 1
preset: balanced
pta:
  policy: call-site
  context_depth: 2
  extra_entries: ["<Main: void <clinit>()>"]
```

Keys of another name are refused in the document and passed over under `pta`. No known key may be repeated.
-/

namespace PointsTo

/-- What a settings document says, not yet checked. -/
structure Settings where
  version : Option Nat
  preset : Option String
  config : Option Config
deriving DecidableEq

namespace Yaml

/-- The only value under a key, if there is one; it is an error if there are several. -/
def only? (members : List (String × Yaml)) (key : String) : Option (Option Yaml) :=
  match members.filter (·.1 = key) with
  | [] => some none
  | [(_, y)] => some (some y)
  | _ => none

/-- The value under a key as `f` reads it, or `d` if there is none. -/
def get? {α : Type} (members : List (String × Yaml)) (key : String) (d : α)
    (f : Yaml → Option α) : Option α :=
  (only? members key).bind fun
    | none => some d
    | some y => f y

/-- A map with given keys. -/
def ofMembers (members : List (String × Yaml)) : Yaml :=
  map (members.map fun (key, value) => (ofText key, value))

end Yaml

namespace Config

/-- The settings as a map. -/
def toYaml (c : Config) : Yaml := .ofMembers
  [("policy", .ofText c.policy.name), ("context_depth", .ofNat c.contextDepth),
   ("heap_context_depth", .ofNat c.heapContextDepth),
   ("worklist_order", .ofText c.worklistOrder.name),
   ("extra_entries", .ofList .ofText c.extraEntries)]

/-- Settings from a map in a document. -/
def ofYaml? (d : Yaml.Document) (y : Yaml) : Option Config := do
  let members ← d.members? y
  pure {
    policy := ← Yaml.get? members "policy" standard.policy
      (d.choice? (ContextPolicy.all.map fun p => (p.name, p)))
    contextDepth := ← Yaml.get? members "context_depth" standard.contextDepth (d.nat? (Nat.pow 2 64))
    heapContextDepth := ← Yaml.get? members "heap_context_depth" standard.heapContextDepth
      (d.nat? (Nat.pow 2 64))
    worklistOrder := ← Yaml.get? members "worklist_order" standard.worklistOrder
      (d.choice? (WorklistOrder.all.map fun o => (o.name, o)))
    extraEntries := ← Yaml.get? members "extra_entries" standard.extraEntries (d.list? d.text?) }

end Config

namespace Settings

/-- The versions of the format that can be read. -/
def supportedVersions : List Nat := [1]

/-- The keys of a document. -/
def keys : List String := ["version", "preset", "pta"]

/-- What a document says. -/
def ofDocument? (d : Yaml.Document) : Option Settings := do
  let members ← d.members? d.root
  if members.all fun (key, _) => keys.contains key then
    pure {
      version := ← Yaml.get? members "version" none (d.optional? (d.nat? (Nat.pow 2 32)))
      preset := ← Yaml.get? members "preset" none (d.optional? d.text?)
      config := ← Yaml.get? members "pta" none (d.optional? (Config.ofYaml? d)) }
  else none

/-- The configuration that a document stands for. -/
def resolve (s : Settings) : Except ConfigError Config := do
  match s.version with
  | none => throw .missingVersion
  | some v => require (supportedVersions.contains v) (.unsupportedVersion v supportedVersions)
  let preset ← match s.preset with
    | some name => Preset.ofName name
    | none => pure .standard
  let config := s.config.getD preset.config
  config.validate
  pure config

end Settings

namespace Config

/-- The settings as a document. -/
def toSettings (c : Config) : String :=
  Yaml.write (.ofMembers [("version", .ofNat 1), ("preset", .bare "null"), ("pta", c.toYaml)])

/-- The configuration of a document. -/
def ofSettings (text : String) : Except ConfigError Config :=
  match (Yaml.parse? text).bind Settings.ofDocument? with
  | some s => s.resolve
  | none => throw .notSettings

/-- The configuration of a file's bytes. -/
def ofSettingsBytes (bytes : ByteArray) : Except ConfigError Config :=
  match String.fromUTF8? bytes with
  | some text => ofSettings text
  | none => throw .notText

end Config

end PointsTo
