import PointsTo.Yaml.Lexer

/-!
# From tokens to a document

`document?` reads the tokens of a text that holds one document or none. Each kind of node has a function
that answers with the node and with what is left; the fuel that makes plain that they end is more than the
tokens can use up, because no node is entered twice without a token in between.

The anchors of a document are numbered in the order in which their nodes start: the number of an anchor is
the number of different names in use before it. So a name in use again shares its number with the next new
name, and a number stands for the last node that has it.
-/

namespace PointsTo.Yaml

/-! ## Anchors -/

/-- The anchors of a document up to some place. -/
structure Anchors where
  /-- The names in use, with the numbers that they have now. -/
  names : List (String × Nat) := []
  /-- How many anchored nodes have started. -/
  started : Nat := 0
  /-- The anchored nodes that are complete, with how many started before each, and its number. -/
  nodes : List (Nat × Nat × Yaml) := []

namespace Anchors

/-- The number of a name. -/
def number? (a : Anchors) (name : String) : Option Nat := a.names.lookup name

/-- A node of a given name starts. -/
def start (a : Anchors) (name : String) : Anchors :=
  { a with
    names := (name, a.names.length) :: a.names.filter (·.1 ≠ name)
    started := a.started + 1 }

/-- A node is complete, if it is an anchored one: `place` is how many started before it and its number. -/
def finish (a : Anchors) (place : Option (Nat × Nat)) (y : Yaml) : Anchors :=
  match place with
  | none => a
  | some (started, number) => { a with nodes := (started, number, y) :: a.nodes }

/-- What each number stands for, the nodes that started last first. -/
def table (a : Anchors) : List (Nat × Yaml) :=
  (a.nodes.mergeSort fun x y => y.1 ≤ x.1).map (·.2)

end Anchors

/-! ## Nodes -/

/-- Tokens that are still to be read. -/
structure Source where
  tokens : List Token
  anchors : Anchors

/-- What may stand in front of a node. -/
structure Properties where
  /-- Its name. -/
  anchor : Option String := none
  tag : Option TagMark := none

/-- What stands in front of a node, in any order, and what is behind that. -/
def properties : List Token → Properties × List Token
  | .anchor a :: .tag t :: ts => (⟨some a, some t⟩, ts)
  | .anchor a :: ts => (⟨some a, none⟩, ts)
  | .tag t :: .anchor a :: ts => (⟨some a, some t⟩, ts)
  | .tag t :: ts => (⟨none, some t⟩, ts)
  | ts => ({}, ts)

/-- Where a node may stand. -/
inductive Place where
  /-- Between brackets. -/
  | flow
  /-- Outside of brackets. -/
  | block
  /-- Outside of brackets, where the items of a list need not be further to the right. -/
  | member
deriving DecidableEq

/-- Is there nothing in front of the next key or value, or of the end? -/
def endsMember : List Token → Bool
  | .key :: _ | .value :: _ | .blockEnd :: _ => true
  | _ => false

/-- Is there nothing in front of the next part of a list or map between brackets? -/
def endsFlow (close : Token) : List Token → Bool
  | t :: _ => t = .comma || t = close
  | [] => false

mutual

/-- A node. -/
def node (handles : Handles) (place : Place) (s : Source) : (fuel : Nat) → Option (Yaml × Source)
  | 0 => none
  | n + 1 =>
    match s.tokens with
    | .reference name :: ts =>
      (s.anchors.number? name).map fun number => (reference number, { s with tokens := ts })
    | _ =>
      let (p, ts) := properties s.tokens
      let anchors := p.anchor.elim s.anchors s.anchors.start
      let start := p.anchor.bind fun a => (anchors.number? a).map (s.anchors.started, ·)
      match p.tag.map (·.tag? handles) with
      | some none => none
      | tag =>
        match content handles place tag.join (p.anchor.isSome || p.tag.isSome) ⟨ts, anchors⟩ n with
        | none => none
        | some (y, s) => some (y, { s with anchors := s.anchors.finish start y })

/-- A node behind what stands in front of it; it may be left out if anything does. -/
def content (handles : Handles) (place : Place) (tag : Option Tag) (optional : Bool) (s : Source) :
    (fuel : Nat) → Option (Yaml × Source)
  | 0 => none
  | n + 1 =>
    match s.tokens with
    | .scalar style text :: ts => some (scalar style tag text, { s with tokens := ts })
    | .listStart :: ts => flowItems handles true [] { s with tokens := ts } n
    | .mapStart :: ts => flowMembers handles true [] { s with tokens := ts } n
    | t :: ts =>
      if t = .item && place = .member then memberItems handles [] s n
      else if t = .blockListStart && place ≠ .flow then blockItems handles [] { s with tokens := ts } n
      else if t = .blockMapStart && place ≠ .flow then blockMembers handles [] { s with tokens := ts } n
      else if optional then some (scalar .plain tag "", s)
      else none
    | [] => if optional then some (scalar .plain tag "", s) else none

/-- The items of a block list, behind those that are given last first. -/
def blockItems (handles : Handles) (before : List Yaml) (s : Source) :
    (fuel : Nat) → Option (Yaml × Source)
  | 0 => none
  | n + 1 =>
    match s.tokens with
    | .item :: ts =>
      match ts with
      | .item :: _ | .blockEnd :: _ => blockItems handles (nothing :: before) { s with tokens := ts } n
      | _ =>
        match node handles .block { s with tokens := ts } n with
        | none => none
        | some (y, s) => blockItems handles (y :: before) s n
    | .blockEnd :: ts => some (list before.reverse, { s with tokens := ts })
    | _ => none

/-- The items of a list in the column of its key, behind those that are given last first. -/
def memberItems (handles : Handles) (before : List Yaml) (s : Source) :
    (fuel : Nat) → Option (Yaml × Source)
  | 0 => none
  | n + 1 =>
    match s.tokens with
    | .item :: ts =>
      if endsMember ts || ts.head? = some .item then
        memberItems handles (nothing :: before) { s with tokens := ts } n
      else
        match node handles .block { s with tokens := ts } n with
        | none => none
        | some (y, s) => memberItems handles (y :: before) s n
    | _ => some (list before.reverse, s)

/-- A key or a value in a block map. -/
def memberPart (handles : Handles) (s : Source) : (fuel : Nat) → Option (Yaml × Source)
  | 0 => none
  | n + 1 => if endsMember s.tokens then some (nothing, s) else node handles .member s n

/-- The members of a block map, behind those that are given last first. -/
def blockMembers (handles : Handles) (before : List (Yaml × Yaml)) (s : Source) :
    (fuel : Nat) → Option (Yaml × Source)
  | 0 => none
  | n + 1 =>
    match s.tokens with
    | .key :: ts =>
      match memberPart handles { s with tokens := ts } n with
      | none => none
      | some (key, s) =>
        match s.tokens with
        | .value :: ts =>
          match memberPart handles { s with tokens := ts } n with
          | none => none
          | some (value, s) => blockMembers handles ((key, value) :: before) s n
        | _ => blockMembers handles ((key, nothing) :: before) s n
    | .blockEnd :: ts => some (map before.reverse, { s with tokens := ts })
    | _ => none

/-- The value behind a key between brackets; nothing if there is no colon. -/
def flowValue (handles : Handles) (close : Token) (s : Source) : (fuel : Nat) → Option (Yaml × Source)
  | 0 => none
  | n + 1 =>
    match s.tokens with
    | .value :: ts =>
      if endsFlow close ts then some (nothing, { s with tokens := ts })
      else node handles .flow { s with tokens := ts } n
    | _ => some (nothing, s)

/-- The items of a list between brackets, behind those that are given last first. A key is a map of its
own; where it is left out, the token behind its mark is passed over. -/
def flowItems (handles : Handles) (first : Bool) (before : List Yaml) (s : Source) :
    (fuel : Nat) → Option (Yaml × Source)
  | 0 => none
  | n + 1 =>
    match s.tokens, first with
    | .listEnd :: ts, _ => some (list before.reverse, { s with tokens := ts })
    | .comma :: ts, false => flowItem handles before { s with tokens := ts } n
    | _, false => none
    | _, true => flowItem handles before s n

/-- The items of a list between brackets from one on that no comma starts; it may be left out at the end. -/
def flowItem (handles : Handles) (before : List Yaml) (s : Source) :
    (fuel : Nat) → Option (Yaml × Source)
  | 0 => none
  | n + 1 =>
    match s.tokens with
    | .listEnd :: ts => some (list before.reverse, { s with tokens := ts })
    | .key :: ts =>
      let key :=
        if endsFlow .listEnd ts || ts.head? = some .value then some (nothing, { s with tokens := ts.tail })
        else node handles .flow { s with tokens := ts } n
      match key with
      | none => none
      | some (key, s) =>
        match flowValue handles .listEnd s n with
        | none => none
        | some (value, s) => flowItems handles false (map [(key, value)] :: before) s n
    | _ =>
      match node handles .flow s n with
      | none => none
      | some (y, s) => flowItems handles false (y :: before) s n

/-- The members of a map between brackets, behind those that are given last first. -/
def flowMembers (handles : Handles) (first : Bool) (before : List (Yaml × Yaml)) (s : Source) :
    (fuel : Nat) → Option (Yaml × Source)
  | 0 => none
  | n + 1 =>
    match s.tokens, first with
    | .mapEnd :: ts, _ => some (map before.reverse, { s with tokens := ts })
    | .comma :: ts, false => flowMember handles before { s with tokens := ts } n
    | _, false => none
    | _, true => flowMember handles before s n

/-- The members of a map between brackets from one on that no comma starts; it may be left out at the
end. A node that is not marked as a key has no value. -/
def flowMember (handles : Handles) (before : List (Yaml × Yaml)) (s : Source) :
    (fuel : Nat) → Option (Yaml × Source)
  | 0 => none
  | n + 1 =>
    match s.tokens with
    | .mapEnd :: ts => some (map before.reverse, { s with tokens := ts })
    | .key :: ts =>
      let key :=
        if endsFlow .mapEnd ts || ts.head? = some .value then some (nothing, { s with tokens := ts })
        else node handles .flow { s with tokens := ts } n
      match key with
      | none => none
      | some (key, s) =>
        match flowValue handles .mapEnd s n with
        | none => none
        | some (value, s) => flowMembers handles false ((key, value) :: before) s n
    | _ =>
      match node handles .flow s n with
      | none => none
      | some (y, s) => flowMembers handles false ((y, nothing) :: before) s n

end

/-! ## Documents -/

/-- Is it a version of the language that can be read? -/
def isSupported (major minor : Nat) : Bool := major = 1 && (minor = 1 || minor = 2)

/-- The handles that directives define, behind those that are given, and what is behind the directives. No
directive may be repeated. -/
def directives? (versioned : Bool) (handles : Handles) : List Token → Option (Handles × List Token)
  | .directive (.version major minor) :: ts =>
    if versioned || !isSupported major minor then none else directives? true handles ts
  | .directive (.handle name octets) :: ts =>
    if (handles.lookup name).isSome then none else directives? versioned ((name, octets) :: handles) ts
  | ts => some (handles ++ standardHandles, ts)

/-- Does a document start here that says so? -/
def startsExplicit : List Token → Bool
  | .directive _ :: _ | .documentStart :: _ => true
  | _ => false

/-- Is there nothing in a document that has begun? -/
def endsDocument : List Token → Bool
  | [] | .directive _ :: _ | .documentStart :: _ | .documentEnd :: _ => true
  | _ => false

/-- The root of a document, and what is left. -/
def root? (ts : List Token) : Option (Yaml × Source) :=
  let fuel := 4 * ts.length + 4
  if startsExplicit ts then
    match directives? false [] ts with
    | some (handles, .documentStart :: ts) =>
      if endsDocument ts then some (nothing, ⟨ts, {}⟩) else node handles .block ⟨ts, {}⟩ fuel
    | _ => none
  else node standardHandles .block ⟨ts, {}⟩ fuel

/-- The document that tokens stand for. Without any, it holds nothing; behind it, nothing may be but what
ends it. -/
def document? (ts : List Token) : Option Document :=
  if ts.isEmpty then some ⟨nothing, []⟩
  else
    (root? ts).bind fun (root, s) =>
      if s.tokens.all (· = .documentEnd) then some ⟨root, s.anchors.table⟩ else none

/-- The document that a text holds. -/
def parse? (text : String) : Option Document := (tokens? text).bind document?

end PointsTo.Yaml
