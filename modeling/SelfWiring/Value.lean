import SelfWiring.Text.Integer

/-! # Values

What travels between cells: signed 64-bit integers, truth values and texts. A `Kind` names one of
these sorts, or all of them at once.
-/

namespace SelfWiring

inductive Value where
  | int (n : Int64)
  | bool (b : Bool)
  | text (s : String)
  deriving DecidableEq, Inhabited

inductive Kind where
  | int
  | bool
  | text
  | any
  deriving DecidableEq, Inhabited

def Kind.name : Kind → String
  | .int => "int"
  | .bool => "bool"
  | .text => "text"
  | .any => "any"

def Kind.all : List Kind := [.int, .bool, .text, .any]

def Kind.ofName? (name : String) : Option Kind := Kind.all.find? (·.name == name)

namespace Value

def kind : Value → Kind
  | int _ => .int
  | bool _ => .bool
  | text _ => .text

/-- The text shown for a value: a text is shown as it is. -/
def display : Value → String
  | int n => String.ofList (Text.Integer.render n.toInt)
  | bool b => if b then "true" else "false"
  | text s => s

def asInt? : Value → Option Int64
  | int n => some n
  | _ => none

def asText? : Value → Option String
  | text s => some s
  | _ => none

end Value

/-- A parameter of kind `any` takes every value, any other takes its own kind only. -/
def Kind.takes (k : Kind) (v : Value) : Bool := k == .any || k == v.kind

theorem Kind.ofName?_name (k : Kind) : Kind.ofName? k.name = some k := by cases k <;> rfl

end SelfWiring
