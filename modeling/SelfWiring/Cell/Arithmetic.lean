import SelfWiring.Cell.Basic

/-! # Arithmetic cells

Six cells over two integers. The results of the operations are computed without bounds and refused
when they leave the signed 64-bit range; nothing wraps. Division drops the fraction.
-/

namespace SelfWiring.Cell

/-- A result in the signed 64-bit range. -/
def bounded (n : Int) : Except Objection Value :=
  if -0x8000000000000000 ≤ n ∧ n < 0x8000000000000000 then .ok (.int (Int64.ofInt n))
  else .error .overflow

/-- An operation on two integers as one on argument lists. -/
def onPair (f : Int → Int → Except Objection Value) :
    List Value → Except Objection (List Value)
  | [.int a, .int b] => (f a.toInt b.toInt).map fun v => [v]
  | _ => .error .notTwoIntegers

def divideInts (a b : Int) : Except Objection Value :=
  if b = 0 then .error .divisionByZero else bounded (a.tdiv b)

/-- A cell over two integers. -/
def binary (name : String) (output : Kind) (fallible : Bool)
    (f : Int → Int → Except Objection Value) : Cell :=
  .pure name ⟨[.int, .int], [output], fallible⟩ [("category", "arithmetic")] (onPair f)

def sum : Cell := binary "sum" .int false fun a b => bounded (a + b)
def subtract : Cell := binary "subtract" .int false fun a b => bounded (a - b)
def multiply : Cell := binary "multiply" .int false fun a b => bounded (a * b)
def divide : Cell := binary "divide" .int true divideInts
def greater : Cell := binary "greater" .bool false fun a b => .ok (.bool (b < a))
def equal : Cell := binary "equal" .bool false fun a b => .ok (.bool (a == b))

/-- The arithmetic cells. -/
def arithmetic : List Cell := [sum, subtract, multiply, divide, greater, equal]

end SelfWiring.Cell
