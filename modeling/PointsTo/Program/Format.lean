import PointsTo.Json.Printer
import PointsTo.Json.Reader
import PointsTo.Json.Record
import PointsTo.Program.Index

/-!
# Programs as JSON

`Program.toJson` writes every field of every entity; `Program.ofJson?` reads it back and lets a
document leave out what is usually empty. `IndexedProgram.load` reads a text, checks the program and
indexes it.

A statement is an object with its kind under `op`, next to the fields of that kind.
-/

namespace PointsTo

/-- Why a program could not be loaded. -/
inductive LoadError where
  | notText
  | notProgram
  | refused (e : ProgramError)
deriving DecidableEq

namespace Site

/-- The site as a record. -/
def toJson (s : Site) : Json := .record [("method", .ofNat s.method), ("index", .ofNat s.index)]

/-- A site from its record. -/
def ofJson? (j : Json) : Option Site := do
  match ← j.slots? ["method", "index"] with
  | [method, index] => pure ⟨← method.required Json.id?, ← index.required Json.id?⟩
  | _ => none

end Site

namespace TypeRef

/-- The type as a tagged value. -/
def toJson : TypeRef → Json
  | ofClass c => .record [("Class", .ofNat c)]
  | arrayOf elem => .record [("Array", elem.toJson)]

/-- A type from its tagged value. -/
def ofJson? : Json → Option TypeRef
  | .obj [(some "Class", j)] => j.id?.map .ofClass
  | .obj [(some "Array", j)] => (ofJson? j).map .arrayOf
  | _ => none

end TypeRef

namespace CallMode

/-- The modes by name. -/
def choices : List (String × CallMode) :=
  [static, special, virtual, interface, dynamic].map fun m => (m.name, m)

/-- A mode from its name. -/
def ofJson? (j : Json) : Option CallMode := j.choice? Json.isNullOrEmpty choices

end CallMode

namespace MethodRef

/-- The reference as a record. -/
def toJson (r : MethodRef) : Json :=
  .record [("class", .ofNat r.owner), ("subsignature", .ofString r.subsignature)]

/-- A reference from its record. -/
def ofJson? (j : Json) : Option MethodRef := do
  match ← j.slots? ["class", "subsignature"] with
  | [owner, subsignature] =>
    pure ⟨← owner.required Json.id?, ← subsignature.required Json.text?⟩
  | _ => none

end MethodRef

namespace Call

/-- The names of the fields of a call. -/
def fieldNames : List String := ["kind", "method_ref", "receiver", "args", "result"]

/-- The fields of a call. -/
def members (c : Call) : List (String × Json) :=
  [("kind", .ofString c.mode.name), ("method_ref", c.target.toJson),
   ("receiver", .ofOption .ofNat c.receiver), ("args", .ofList .ofNat c.args),
   ("result", .ofOption .ofNat c.result)]

/-- The call as a record. -/
def toJson (c : Call) : Json := .record c.members

/-- A call from its record. -/
def ofJson? (j : Json) : Option Call := do
  match ← j.slots? fieldNames with
  | [mode, target, receiver, args, result] =>
    pure {
      mode := ← mode.required CallMode.ofJson?
      target := ← target.required MethodRef.ofJson?
      receiver := ← receiver.optional Json.id?
      args := ← args.orElse [] (Json.list? Json.id?)
      result := ← result.optional Json.id? }
  | _ => none

end Call

namespace Stmt

/-- The kind of a statement. -/
def kind : Stmt → String
  | new .. => "new"
  | copy .. => "copy"
  | loadStatic .. => "load_static"
  | storeStatic .. => "store_static"
  | loadField .. => "load_field"
  | storeField .. => "store_field"
  | loadArray .. => "load_array"
  | storeArray .. => "store_array"
  | call .. => "invoke"

/-- The fields of a statement besides its kind. -/
def members : Stmt → List (String × Json)
  | new lhs ty => [("lhs", .ofNat lhs), ("ty", ty.toJson)]
  | copy lhs rhs => [("lhs", .ofNat lhs), ("rhs", .ofNat rhs)]
  | loadStatic lhs field => [("lhs", .ofNat lhs), ("field", .ofNat field)]
  | storeStatic field rhs => [("field", .ofNat field), ("rhs", .ofNat rhs)]
  | loadField lhs base field => [("lhs", .ofNat lhs), ("base", .ofNat base), ("field", .ofNat field)]
  | storeField base field rhs =>
    [("base", .ofNat base), ("field", .ofNat field), ("rhs", .ofNat rhs)]
  | loadArray lhs base => [("lhs", .ofNat lhs), ("base", .ofNat base)]
  | storeArray base rhs => [("base", .ofNat base), ("rhs", .ofNat rhs)]
  | call c => c.members

/-- The statement as an object with its kind. -/
def toJson (s : Stmt) : Json := .record (("op", .ofString s.kind) :: s.members)

/-- A statement of two ids. -/
def ofIds₂? (names : List String) (f : Nat → Nat → Stmt) (j : Json) : Option Stmt := do
  match ← j.slots? names with
  | [a, b] => pure (f (← a.required Json.id?) (← b.required Json.id?))
  | _ => none

/-- A statement of three ids. -/
def ofIds₃? (names : List String) (f : Nat → Nat → Nat → Stmt) (j : Json) : Option Stmt := do
  match ← j.slots? names with
  | [a, b, c] =>
    pure (f (← a.required Json.id?) (← b.required Json.id?) (← c.required Json.id?))
  | _ => none

/-- A statement from its kind and its other fields. -/
def ofFields? (kind : String) (j : Json) : Option Stmt :=
  match kind with
  | "new" => do
    match ← j.slots? ["lhs", "ty"] with
    | [lhs, ty] => pure (.new (← lhs.required Json.id?) (← ty.required TypeRef.ofJson?))
    | _ => none
  | "copy" => ofIds₂? ["lhs", "rhs"] .copy j
  | "load_static" => ofIds₂? ["lhs", "field"] .loadStatic j
  | "store_static" => ofIds₂? ["field", "rhs"] .storeStatic j
  | "load_field" => ofIds₃? ["lhs", "base", "field"] .loadField j
  | "store_field" => ofIds₃? ["base", "field", "rhs"] .storeField j
  | "load_array" => ofIds₂? ["lhs", "base"] .loadArray j
  | "store_array" => ofIds₂? ["base", "rhs"] .storeArray j
  | "invoke" => (Call.ofJson? j).map .call
  | _ => none

/-- How deep arrays and objects may be nested in a statement. A document keeps up to 127 of them open at
once, and four of those enclose a statement: the program, its methods, the method and its body. -/
def maxDepth : Nat := 127 - 4

/-- A statement from an object with its kind, or from an array that starts with it. The kind may stand
anywhere among the members, so all of them are kept until it is known: ignored ones must be plain too,
and none may be nested too deep. -/
def ofJson? (j : Json) : Option Stmt :=
  if !j.isPlain || j.depth > maxDepth then none
  else match j with
  | .obj members => do
    let named ← (Json.obj members).members?
    match named.filter (·.1 = "op") with
    | [(_, .str (some kind))] => ofFields? kind (.record (named.filter (·.1 ≠ "op")))
    | _ => none
  | .arr (.str (some kind) :: fields) => ofFields? kind (.arr fields)
  | _ => none

end Stmt

namespace ClassDecl

/-- The class as a record. -/
def toJson (c : ClassDecl) : Json := .record
  [("id", .ofNat c.id), ("name", .ofString c.name), ("superclass", .ofOption .ofNat c.superclass),
   ("interfaces", .ofList .ofNat c.interfaces), ("is_interface", .bool c.isInterface),
   ("is_abstract", .bool c.isAbstract),
   ("declared_methods", .record (c.methods.entries.map fun (k, m) => (k, .ofNat m)))]

/-- A method table from an object; of two entries of one key the later one counts. -/
def methodsOfJson? (j : Json) : Option (NameMap MethodId) := do
  let members ← j.members?
  let entries ← members.mapM fun (k, v) => v.id?.map (k, ·)
  pure (NameMap.ofList entries)

/-- A class from its record. -/
def ofJson? (j : Json) : Option ClassDecl := do
  match ← j.slots? ["id", "name", "superclass", "interfaces", "is_interface", "is_abstract",
    "declared_methods"] with
  | [id, name, superclass, interfaces, isInterface, isAbstract, methods] =>
    pure {
      id := ← id.required Json.id?
      name := ← name.required Json.text?
      superclass := ← superclass.keyed Json.id?
      interfaces := ← interfaces.orElse [] (Json.list? Json.id?)
      isInterface := ← isInterface.orElse false Json.bool?
      isAbstract := ← isAbstract.orElse false Json.bool?
      methods := ← methods.orElse ∅ methodsOfJson? }
  | _ => none

end ClassDecl

namespace FieldDecl

/-- The field as a record. -/
def toJson (f : FieldDecl) : Json := .record
  [("id", .ofNat f.id), ("name", .ofString f.name), ("declaring_class", .ofNat f.owner),
   ("is_static", .bool f.isStatic)]

/-- A field from its record. -/
def ofJson? (j : Json) : Option FieldDecl := do
  match ← j.slots? ["id", "name", "declaring_class", "is_static"] with
  | [id, name, owner, isStatic] =>
    pure {
      id := ← id.required Json.id?
      name := ← name.required Json.text?
      owner := ← owner.required Json.id?
      isStatic := ← isStatic.orElse false Json.bool? }
  | _ => none

end FieldDecl

namespace MethodDecl

/-- The method as a record. -/
def toJson (m : MethodDecl) : Json := .record
  [("id", .ofNat m.id), ("declaring_class", .ofNat m.owner),
   ("subsignature", .ofString m.subsignature), ("is_static", .bool m.isStatic),
   ("is_abstract", .bool m.isAbstract), ("this", .ofOption .ofNat m.this),
   ("params", .ofList .ofNat m.params), ("return_vars", .ofList .ofNat m.returns),
   ("stmts", .ofList Stmt.toJson m.body)]

/-- A method from its record. -/
def ofJson? (j : Json) : Option MethodDecl := do
  match ← j.slots? ["id", "declaring_class", "subsignature", "is_static", "is_abstract", "this",
    "params", "return_vars", "stmts"] with
  | [id, owner, subsignature, isStatic, isAbstract, this, params, returns, body] =>
    pure {
      id := ← id.required Json.id?
      owner := ← owner.required Json.id?
      subsignature := ← subsignature.required Json.text?
      isStatic := ← isStatic.orElse false Json.bool?
      isAbstract := ← isAbstract.orElse false Json.bool?
      this := ← this.optional Json.id?
      params := ← params.orElse [] (Json.list? Json.id?)
      returns := ← returns.orElse [] (Json.list? Json.id?)
      body := ← body.orElse [] (Json.list? Stmt.ofJson?) }
  | _ => none

end MethodDecl

namespace VarDecl

/-- The variable as a record. -/
def toJson (v : VarDecl) : Json := .record
  [("id", .ofNat v.id), ("name", .ofString v.name), ("method", .ofNat v.method)]

/-- A variable from its record. -/
def ofJson? (j : Json) : Option VarDecl := do
  match ← j.slots? ["id", "name", "method"] with
  | [id, name, method] =>
    pure {
      id := ← id.required Json.id?
      name := ← name.required Json.text?
      method := ← method.required Json.id? }
  | _ => none

end VarDecl

namespace Program

/-- The program as a record. -/
def toJson (p : Program) : Json := .record
  [("classes", .ofList ClassDecl.toJson p.classes.toList),
   ("fields", .ofList FieldDecl.toJson p.fields.toList),
   ("methods", .ofList MethodDecl.toJson p.methods.toList),
   ("vars", .ofList VarDecl.toJson p.vars.toList),
   ("entry", .ofOption .ofNat p.entry), ("root_class", .ofOption .ofNat p.rootClass)]

/-- A program from its record, not yet checked. -/
def ofJson? (j : Json) : Option Program := do
  match ← j.slots? ["classes", "fields", "methods", "vars", "entry", "root_class"] with
  | [classes, fields, methods, vars, entry, rootClass] =>
    pure {
      classes := (← classes.required (Json.list? ClassDecl.ofJson?)).toArray
      fields := (← fields.orElse [] (Json.list? FieldDecl.ofJson?)).toArray
      methods := (← methods.required (Json.list? MethodDecl.ofJson?)).toArray
      vars := (← vars.orElse [] (Json.list? VarDecl.ofJson?)).toArray
      entry := ← entry.keyed Json.id?
      rootClass := ← rootClass.optional Json.id? }
  | _ => none

/-- The text of the program. -/
def toText (p : Program) : String := p.toJson.pretty

/-- The program of a text, not yet checked. -/
def ofText? (text : String) : Option Program := (Json.parse? text).bind ofJson?

end Program

namespace IndexedProgram

/-- The program of a JSON value, checked and indexed. -/
def ofJson (j : Json) : Except LoadError IndexedProgram :=
  match Program.ofJson? j with
  | none => throw .notProgram
  | some p => p.check.mapError .refused

/-- The program of a text, checked and indexed. -/
def load (text : String) : Except LoadError IndexedProgram :=
  match Program.ofText? text with
  | none => throw .notProgram
  | some p => p.check.mapError .refused

/-- The program of a file's bytes, checked and indexed. -/
def loadBytes (bytes : ByteArray) : Except LoadError IndexedProgram :=
  match String.fromUTF8? bytes with
  | none => throw .notText
  | some text => load text

end IndexedProgram

end PointsTo
