import SelfWiring.Toml.Table
import SelfWiring.Toml.Text

/-! # Reading a settings file

A document is a sequence of lines: key and value, a header, or nothing, each with a comment if
wanted. A line ends with U+000A, alone or behind U+000D. `read?` gives the entries of a document, or
nothing if the text is none or defines something twice.
-/

namespace SelfWiring.Toml

/-- How deep arrays and inline tables may be nested, and how many parts a key may have. -/
def deepest : Nat := 79

def skipBlanks (cs : List Char) : List Char := cs.dropWhile isBlank

/-- What follows a comment, if there is one. -/
def skipComment : List Char → List Char
  | '#' :: cs => cs.dropWhile isPlain
  | cs => cs

/-- The next line, when nothing but blanks and a comment are left of the present one. -/
def endLine? (cs : List Char) : Option (List Char) :=
  match skipComment (skipBlanks cs) with
  | [] => some []
  | '\n' :: rest => some rest
  | _ => none

/-- Whether a character can stand in a key without quotes. -/
def isKeyChar (c : Char) : Bool := c.isAlphanum || c == '_' || c == '-'

/-- One part of a key. -/
def keyPart? (cs : List Char) : Option (String × List Char) :=
  match cs with
  | '"' :: _ => (readShort? cs).map fun (s, rest) => (String.ofList s, rest)
  | '\'' :: _ => (readShort? cs).map fun (s, rest) => (String.ofList s, rest)
  | _ =>
    let word := cs.takeWhile isKeyChar
    if word.isEmpty then none else some (String.ofList word, cs.dropWhile isKeyChar)

/-- The parts of a key with dots between them; blanks around a part do not count. At most `most`
parts are read. -/
def key? : (most : Nat) → List Char → Option (List String × List Char)
  | 0, _ => none
  | most + 1, cs =>
    match keyPart? (skipBlanks cs) with
    | none => none
    | some (part, rest) =>
      match skipBlanks rest with
      | '.' :: rest => (key? most rest).map fun (parts, rest) => (part :: parts, rest)
      | rest => some ([part], rest)

/-- Blanks, comments and line breaks between the items of an array. -/
def skipGaps : (fuel : Nat) → List Char → List Char
  | 0, cs => cs
  | fuel + 1, cs =>
    match skipComment (skipBlanks cs) with
    | '\n' :: rest => skipGaps fuel rest
    | rest => rest

/-- The items of an array behind its opening bracket. -/
def items? (item : List Char → Option (Value × List Char)) :
    (fuel : Nat) → List Char → Option (List Char)
  | 0, _ => none
  | fuel + 1, cs =>
    match skipGaps cs.length cs with
    | ']' :: rest => some rest
    | cs =>
      match item cs with
      | none => none
      | some (_, rest) =>
        match skipGaps rest.length rest with
        | ',' :: rest => items? item fuel rest
        | ']' :: rest => some rest
        | _ => none

/-- A key, an equals sign and a value. -/
def pair? (item : List Char → Option (Value × List Char)) (cs : List Char) :
    Option ((List String × Value) × List Char) :=
  match key? deepest cs with
  | some (path, '=' :: rest) => (item (skipBlanks rest)).map fun (v, rest) => ((path, v), rest)
  | _ => none

/-- Add a value under the parts of a key. -/
def addAt (path : List String) (v : Value) (origin : Origin) (es : Entries) : Option Entries :=
  match path.getLast? with
  | some key => addValue path.dropLast key v origin es
  | none => none

/-- The pairs of an inline table, added to those before them. -/
def pairs? (item : List Char → Option (Value × List Char)) :
    (fuel : Nat) → Entries → List Char → Option (List Char)
  | 0, _, _ => none
  | fuel + 1, es, cs =>
    match pair? item cs with
    | none => none
    | some ((path, v), rest) =>
      (addAt path v .header es).bind fun es =>
        match skipBlanks rest with
        | ',' :: rest => pairs? item fuel es rest
        | '}' :: rest => some rest
        | _ => none

/-- An inline table behind its opening brace. -/
def inlineTable? (item : List Char → Option (Value × List Char)) (cs : List Char) :
    Option (List Char) :=
  match skipBlanks cs with
  | '}' :: rest => some rest
  | cs => pairs? item cs.length [] cs

/-- A string value and what follows it. -/
def string? (cs : List Char) : Option (Value × List Char) :=
  (readString? cs).map fun (s, rest) => (.text (String.ofList s), rest)

/-- A value and what follows it, nested at most `depth` deep. -/
def value? : (depth : Nat) → List Char → Option (Value × List Char)
  | _, '"' :: cs => string? ('"' :: cs)
  | _, '\'' :: cs => string? ('\'' :: cs)
  | depth + 1, '[' :: cs =>
    (items? (value? depth) (cs.length + 1) cs).map fun rest => (.other, rest)
  | depth + 1, '{' :: cs => (inlineTable? (value? depth) cs).map fun rest => (.other, rest)
  | _, cs => readBare? cs

/-- What has been read of a document: its entries, and the path of the table that keys go to. -/
structure Draft where
  entries : Entries := []
  path : List String := []

namespace Draft

/-- Add a value under a key of the present table. -/
def add? (d : Draft) (path : List String) (v : Value) : Option Draft :=
  (alterTable false (addAt path v) d.path .header d.entries).map fun entries => { d with entries }

/-- Go on with the table or the row of a header. -/
def open? (d : Draft) (isRow : Bool) (path : List String) : Option Draft :=
  match path.getLast? with
  | none => none
  | some key =>
    let entries := if isRow then openRow path.dropLast key d.entries
      else openTable path.dropLast key d.entries
    entries.map fun entries => { entries, path }

end Draft

/-- A line that begins with a header. -/
def header? (d : Draft) : List Char → Option (Draft × List Char)
  | '[' :: '[' :: cs =>
    match key? deepest cs with
    | some (path, ']' :: ']' :: rest) =>
      (d.open? true path).bind fun d => (endLine? rest).map fun rest => (d, rest)
    | _ => none
  | '[' :: cs =>
    match key? deepest cs with
    | some (path, ']' :: rest) =>
      (d.open? false path).bind fun d => (endLine? rest).map fun rest => (d, rest)
    | _ => none
  | _ => none

/-- The line that a text begins with, up to its end. -/
def line? (d : Draft) (cs : List Char) : Option (Draft × List Char) :=
  match skipBlanks cs with
  | '[' :: cs => header? d ('[' :: cs)
  | cs =>
    match endLine? cs with
    | some rest => some (d, rest)
    | none =>
      match pair? (value? deepest) cs with
      | none => none
      | some ((path, v), rest) =>
        (d.add? path v).bind fun d => (endLine? rest).map fun rest => (d, rest)

/-- The lines of a document. -/
def lines? : (fuel : Nat) → Draft → List Char → Option Draft
  | _, d, [] => some d
  | 0, _, _ => none
  | fuel + 1, d, cs => (line? d cs).bind fun (d, rest) => lines? fuel d rest

/-- A text whose line breaks are all single characters. -/
def unifyBreaks : List Char → List Char
  | [] => []
  | '\r' :: '\n' :: cs => '\n' :: unifyBreaks cs
  | c :: cs => c :: unifyBreaks cs

/-- A text without the byte order mark that it may begin with. -/
def dropMark : List Char → List Char
  | '\uFEFF' :: cs => cs
  | cs => cs

/-- The entries of a document. -/
def read? (text : String) : Option Entries :=
  let cs := unifyBreaks (dropMark text.toList)
  (lines? cs.length {} cs).map (·.entries)

end SelfWiring.Toml
