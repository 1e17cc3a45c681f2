/-! # Signed 64-bit integers in decimal

`Integer.render` writes an integer with the fewest digits. `Integer.read` accepts an optional sign
followed by ASCII digits, leading zeros included, and reports the first fault met from left to
right: a character that is no digit is named before the overflow it would have caused.
-/

namespace SelfWiring.Text.Integer

/-- Why a text is not a signed 64-bit integer. -/
inductive Fault where
  | empty
  | invalidDigit
  | tooLarge
  | tooSmall
  deriving DecidableEq

def Fault.message : Fault → String
  | .empty => "cannot parse integer from empty string"
  | .invalidDigit => "invalid digit found in string"
  | .tooLarge => "number too large to fit in target type"
  | .tooSmall => "number too small to fit in target type"

/-- The decimal digits of an integer, after `-` when it is negative. -/
def render (n : Int) : List Char :=
  if n < 0 then '-' :: Nat.toDigits 10 n.natAbs else Nat.toDigits 10 n.natAbs

/-- The value of a run of digits, as long as no leading part of it exceeds `limit`. -/
def magnitude (limit : Nat) (excess : Fault) : Nat → List Char → Except Fault Nat
  | total, [] => .ok total
  | total, c :: rest =>
    if c.isDigit then
      let next := total * 10 + (c.toNat - '0'.toNat)
      if limit < next then .error excess else magnitude limit excess next rest
    else .error .invalidDigit

/-- The digits of a number that is not negative. -/
def readPositive (digits : List Char) : Except Fault Int64 :=
  (magnitude 0x7FFFFFFFFFFFFFFF .tooLarge 0 digits).map fun n => Int64.ofInt n

/-- The digits of a number that follow a minus sign. -/
def readNegative (digits : List Char) : Except Fault Int64 :=
  (magnitude 0x8000000000000000 .tooSmall 0 digits).map fun n => Int64.ofInt (-n)

def read : List Char → Except Fault Int64
  | [] => .error .empty
  | ['+'] => .error .invalidDigit
  | ['-'] => .error .invalidDigit
  | '+' :: digits => readPositive digits
  | '-' :: digits => readNegative digits
  | digits => readPositive digits

/-- The integer a text stands for, if it is one. -/
def read? (s : String) : Option Int64 := (read s.toList).toOption

end SelfWiring.Text.Integer
