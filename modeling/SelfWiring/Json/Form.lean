import SelfWiring.Event
import SelfWiring.Json.Printer
import SelfWiring.Json.Reader
import SelfWiring.Payload

/-! # Written forms

How values, contexts, payloads, submissions and events are written as JSON documents, and how the
first four are read back.

A record is read from an object, whose members may come in any order and may include members of
other names, or from an array of its fields in order. A member given twice is an error, under
either of its names if it has two. `write` always produces the object form.
-/

namespace SelfWiring

namespace Json

def text (s : String) : Json := .string (some s)

def integer (n : Int) : Json := .number (.integer n)

def optional : Option String → Json
  | none => .null
  | some s => text s

/-- An object whose member names are texts. -/
def record (fields : List (String × Json)) : Json :=
  .object (fields.map fun (name, j) => (some name, j))

def asText? : Json → Option String
  | .string s => s
  | _ => none

def asBool? : Json → Option Bool
  | .bool b => some b
  | _ => none

def asInt64? : Json → Option Int64
  | .number (.integer n) =>
    if -0x8000000000000000 ≤ n ∧ n < 0x8000000000000000 then some (Int64.ofInt n) else none
  | _ => none

/-- A text or null. -/
def asOptional? : Json → Option (Option String)
  | .null => some none
  | j => (asText? j).map some

def asList? (item : Json → Option α) : Json → Option (List α)
  | .array items => items.mapM item
  | _ => none

/-- A name, or an object with this name alone and null under it. -/
def asName? : Json → Option String
  | .string s => s
  | .object [(name, .null)] => name
  | _ => none

/-- A field of a record: the names it goes by, and whether the array form may stop before it. -/
structure Field where
  names : List String
  trailing : Bool := false

/-- The values that an object gives to a field. -/
def Field.among (f : Field) (members : List Member) : List Json :=
  members.filterMap fun (name, j) =>
    if name.any f.names.contains then some j else none

/-- The value that an object gives to a field, if any; a repetition is an error. -/
def Field.inObject? (members : List Member) (f : Field) : Option (Option Json) :=
  match f.among members with
  | [] => some none
  | [j] => some (some j)
  | _ => none

/-- The values that an array gives to fields in order. -/
def inArray? : List Field → List Json → Option (List (Option Json))
  | [], [] => some []
  | [], _ :: _ => none
  | f :: fs, [] => if f.trailing then (inArray? fs []).map (none :: ·) else none
  | _ :: fs, j :: js => (inArray? fs js).map (some j :: ·)

/-- The values of a record's fields, in order; an object may leave fields out. -/
def fields? (fs : List Field) : Json → Option (List (Option Json))
  | .object members =>
    if members.all (·.1.isSome) then fs.mapM (Field.inObject? members) else none
  | .array items => inArray? fs items
  | _ => none

end Json

namespace Value

def write : Value → Json
  | int n => .record [("kind", .text "int"), ("value", .integer n.toInt)]
  | bool b => .record [("kind", .text "bool"), ("value", .bool b)]
  | text s => .record [("kind", .text "text"), ("value", .text s)]

/-- The value of a kind with a given content. -/
def ofParts? (kind : String) (content : Json) : Option Value :=
  match Kind.ofName? kind with
  | some .int => content.asInt64?.map int
  | some .bool => content.asBool?.map bool
  | some .text => content.asText?.map text
  | _ => none

/-- A value of its two fields. An array names the kind by a text alone. -/
def ofJson? (j : Json) : Option Value :=
  match j, Json.fields? [⟨["kind"], false⟩, ⟨["value"], false⟩] j with
  | .array _, some [some kind, some content] => kind.asText?.bind (ofParts? · content)
  | _, some [some kind, some content] => kind.asName?.bind (ofParts? · content)
  | _, _ => none

end Value

namespace Context

def write (c : Context) : Json :=
  .record [("id", .text c.id), ("behaviour_id", .optional c.behaviour),
    ("clg_name", .optional c.cell), ("tree_id", .optional c.tree),
    ("session_id", .optional c.session), ("information_id", .optional c.information),
    ("expectation", .optional c.expectation), ("pass", .integer c.pass.toInt)]

def fields : List Json.Field :=
  [⟨["id"], false⟩, ⟨["behaviour_id"], false⟩, ⟨["clg_name"], false⟩, ⟨["tree_id"], false⟩,
    ⟨["session_id"], false⟩, ⟨["information_id"], false⟩, ⟨["expectation"], false⟩,
    ⟨["pass"], true⟩]

/-- A part that may be absent or null. -/
def part? : Option Json → Option (Option String)
  | none => some none
  | some j => j.asOptional?

def pass? : Option Json → Option Int64
  | none => some 0
  | some j => j.asInt64?

def ofJson? (j : Json) : Option Context :=
  match Json.fields? fields j with
  | some [some id, behaviour, cell, tree, session, information, expectation, pass] => do
    let id ← id.asText?
    let behaviour ← part? behaviour
    let cell ← part? cell
    let tree ← part? tree
    let session ← part? session
    let information ← part? information
    let expectation ← part? expectation
    let pass ← pass? pass
    return { id, behaviour, cell, tree, session, information, expectation, pass }
  | _ => none

end Context

namespace Payload

def write (p : Payload) : Json :=
  .record [("args", .array (p.args.map Value.write)), ("context", p.context.write),
    ("destination", .text p.destination), ("sources", .array (p.sources.map .text))]

def fields : List Json.Field :=
  [⟨["args"], false⟩, ⟨["context"], false⟩, ⟨["destination"], false⟩, ⟨["sources"], false⟩]

def ofJson? (j : Json) : Option Payload :=
  match Json.fields? fields j with
  | some [some args, some context, some destination, some sources] => do
    let args ← args.asList? Value.ofJson?
    let context ← Context.ofJson? context
    let destination ← destination.asText?
    let sources ← sources.asList? Json.asText?
    return { args, context, destination, sources }
  | _ => none

end Payload

namespace Submission

/-- An absent expectation is left out. -/
def write (s : Submission) : Json :=
  .record ([("input", .text s.input), ("echo", .bool s.echo), ("session_id", .text s.session)] ++
    match s.expectation with
    | none => []
    | some e => [("expectation", .text e)])

def fields : List Json.Field :=
  [⟨["input"], false⟩, ⟨["echo"], false⟩, ⟨["session_id", "sessionID"], false⟩,
    ⟨["expectation"], true⟩]

def echo? : Option Json → Option Bool
  | none => some false
  | some j => j.asBool?

def ofJson? (j : Json) : Option Submission :=
  match Json.fields? fields j with
  | some [some input, echo, some session, expectation] => do
    let input ← input.asText?
    let echo ← echo? echo
    let session ← session.asText?
    let expectation ← Context.part? expectation
    return { input, echo, session, expectation }
  | _ => none

end Submission

def Kind.ofJson? (j : Json) : Option Kind := j.asName?.bind Kind.ofName?

def Stage.ofJson? (j : Json) : Option Stage := j.asName?.bind Stage.ofName?

/-- The tag of the event comes first, its fields follow. -/
def Event.write : Event → Json
  | accepted session tree =>
    .record [("event", .text "accepted"), ("session_id", .text session), ("tree_id", .text tree)]
  | emitted session tree output =>
    .record [("event", .text "emitted"), ("session_id", .text session), ("tree_id", .text tree),
      ("output", .text output)]
  | expectationNotMet tree attempt =>
    .record [("event", .text "expectation_not_met"), ("tree_id", .text tree),
      ("attempt", .integer attempt.toInt)]
  | budgetExhausted tree attempts =>
    .record [("event", .text "retraversal_budget_exhausted"), ("tree_id", .text tree),
      ("attempts", .integer attempts.toInt)]
  | deadEnd behaviour =>
    .record [("event", .text "dead_end"), ("behaviour_id", .text behaviour)]
  | dropped behaviour cell reason =>
    .record [("event", .text "dropped"), ("behaviour_id", .text behaviour), ("cell", .text cell),
      ("reason", .text reason)]

def Value.encode (v : Value) : String := v.write.print
def Context.encode (c : Context) : String := c.write.print
def Payload.encode (p : Payload) : String := p.write.print
def Submission.encode (s : Submission) : String := s.write.print
def Event.encode (e : Event) : String := e.write.print

def Value.decode? (text : String) : Option Value := (Json.read? text).bind Value.ofJson?
def Context.decode? (text : String) : Option Context := (Json.read? text).bind Context.ofJson?
def Payload.decode? (text : String) : Option Payload := (Json.read? text).bind Payload.ofJson?
def Submission.decode? (text : String) : Option Submission :=
  (Json.read? text).bind Submission.ofJson?
def Kind.decode? (text : String) : Option Kind := (Json.read? text).bind Kind.ofJson?
def Stage.decode? (text : String) : Option Stage := (Json.read? text).bind Stage.ofJson?

end SelfWiring
