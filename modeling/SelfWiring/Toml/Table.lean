import SelfWiring.Toml.Scalar

/-! # Tables of a settings file

A document is a table of values, tables and rows of tables. A table comes about in one of three
ways: by a header of its own, as part of a longer header, or by a dotted key. The way decides what
may be added to it later, so that nothing is ever defined twice: a header may complete a table that
was only implied, and dotted keys may extend only what dotted keys have made.
-/

namespace SelfWiring.Toml

inductive Origin where
  /-- By its own header; the document itself counts as such. -/
  | header
  /-- As part of the header of another table. -/
  | implied
  /-- By a dotted key. -/
  | dotted
  deriving DecidableEq

inductive Node where
  | value (v : Value)
  | table (origin : Origin) (entries : List (String × Node))
  /-- Rows of tables, each under a header in double brackets. -/
  | rows (rows : List (List (String × Node)))

abbrev Entries := List (String × Node)

/-- Change what stands under a key, or add something there. -/
def alterKey (key : String) (change : Option Node → Option Node) : Entries → Option Entries
  | [] => (change none).map fun n => [(key, n)]
  | (k, n) :: rest =>
    if k = key then (change (some n)).map fun n => (k, n) :: rest
    else (alterKey key change rest).map ((k, n) :: ·)

/-- Change the table at the end of a path. Tables that are missing on the way are made; of rows, the
last one is meant. -/
def alterTable (dotted : Bool) (change : Origin → Entries → Option Entries) :
    List String → Origin → Entries → Option Entries
  | [], origin, es => change origin es
  | key :: path, _, es =>
    alterKey key (fun
      | none =>
        let origin := if dotted then .dotted else .implied
        (alterTable dotted change path origin []).map (.table origin)
      | some (.value _) => none
      | some (.rows rows) =>
        match rows.reverse with
        | [] => none
        | last :: before =>
          (alterTable dotted change path .header last).map fun last =>
            .rows (before.reverse ++ [last])
      | some (.table origin inner) =>
        if dotted && origin == .header then none
        else (alterTable dotted change path origin inner).map (.table origin)) es

/-- Add a value under a dotted key. -/
def addValue (path : List String) (key : String) (v : Value) (origin : Origin) (es : Entries) :
    Option Entries :=
  alterTable true (fun origin es =>
    if (origin == .dotted) == path.isEmpty then none
    else alterKey key (fun
      | none => some (.value v)
      | some _ => none) es) path origin es

/-- Begin the table of a header. -/
def openTable (path : List String) (key : String) : Entries → Option Entries :=
  alterTable false (fun _ es => alterKey key (fun
    | none => some (.table .header [])
    | some (.table .implied inner) => some (.table .header inner)
    | some _ => none) es) path .header

/-- Begin a row under a header in double brackets. -/
def openRow (path : List String) (key : String) : Entries → Option Entries :=
  alterTable false (fun _ es => alterKey key (fun
    | none => some (.rows [[]])
    | some (.rows rows) => some (.rows (rows ++ [[]]))
    | some _ => none) es) path .header

/-- The value under a key, if a value stands there. -/
def valueAt? (es : Entries) (key : String) : Option Node := es.lookup key

end SelfWiring.Toml
