/-! # Floating-point arithmetic

Magnitudes `m * 2 ^ e` and the formats that bound `m` and `e`. `Floating.round` takes a quotient of
naturals to the nearest magnitude of a format, where a tie goes to the even one; products and
quotients of magnitudes are exact until they are rounded once. `Floating.shortest` goes the other
way, to the fewest decimal digits that round back.
-/

namespace SelfWiring

/-- The number `significand * 2 ^ exponent`. -/
structure Magnitude where
  significand : Nat
  exponent : Int
  deriving DecidableEq, Inhabited

namespace Magnitude

def zero : Magnitude := ⟨0, 0⟩

def isZero (x : Magnitude) : Bool := x.significand == 0

def numerator (x : Magnitude) : Nat := x.significand * Nat.pow 2 x.exponent.toNat

def denominator (x : Magnitude) : Nat := Nat.pow 2 (-x.exponent).toNat

/-- The natural number that a magnitude is, if it is one. -/
def toNat? (x : Magnitude) : Option Nat :=
  if x.numerator % x.denominator = 0 then some (x.numerator / x.denominator) else none

end Magnitude

/-- A binary format: how many bits a significand has, and between which bounds exponents lie. -/
structure Floating where
  precision : Nat
  least : Int
  greatest : Int

namespace Floating

/-- Double precision. -/
def double : Floating := ⟨53, -1074, 971⟩

/-- Double extended precision. -/
def extended : Floating := ⟨64, -16445, 16320⟩

/-- The greatest `k` such that `2 ^ k` does not exceed a quotient. -/
def order (num den : Nat) : Int :=
  let k : Int := (num.log2 : Int) - den.log2
  if den * Nat.pow 2 k.toNat ≤ num * Nat.pow 2 (-k).toNat then k else k - 1

/-- The nearest natural to a quotient, the even one of two. -/
def nearest (num den : Nat) : Nat :=
  let q := num / den
  let r := num % den
  if den < 2 * r ∨ (2 * r = den ∧ q % 2 = 1) then q + 1 else q

/-- The nearest magnitude to a quotient; none if it is out of range. -/
def round (f : Floating) (num den : Nat) : Option Magnitude :=
  if num = 0 then some .zero
  else
    let e := max f.least (order num den - f.precision + 1)
    let m := nearest (num * Nat.pow 2 (-e).toNat) (den * Nat.pow 2 e.toNat)
    let x : Magnitude := if m = Nat.pow 2 f.precision then ⟨m / 2, e + 1⟩ else ⟨m, e⟩
    if f.greatest < x.exponent then none else some x

def ofNat (f : Floating) (n : Nat) : Option Magnitude := f.round n 1

def mul (f : Floating) (x y : Magnitude) : Option Magnitude :=
  f.round (x.numerator * y.numerator) (x.denominator * y.denominator)

def div (f : Floating) (x y : Magnitude) : Option Magnitude :=
  f.round (x.numerator * y.denominator) (x.denominator * y.numerator)

/-- The nearest magnitude to `digits * 10 ^ power`; none if it is out of range. -/
def ofDecimal (f : Floating) (digits : Nat) (power : Int) : Option Magnitude :=
  if digits = 0 ∨ power + digits.log2 < f.least then some .zero
  else if f.greatest + f.precision < power then none
  else f.round (digits * Nat.pow 10 power.toNat) (Nat.pow 10 (-power).toNat)

/-! ### Decimal digits -/

/-- The greatest `k` such that `10 ^ k` does not exceed a magnitude other than zero. -/
def decimalOrder (x : Magnitude) : Int :=
  if x.denominator ≤ x.numerator then
    ((Nat.toDigits 10 (x.numerator / x.denominator)).length : Int) - 1
  else -(Nat.toDigits 10 (x.denominator / x.numerator)).length

/-- A decimal with `count` digits that rounds to a magnitude, the nearer of its two neighbours
first: the digits and the power of ten of the last one. A neighbour with a digit more is the next
power of ten, which takes no more than one. -/
def decimalWith? (f : Floating) (x : Magnitude) (count : Nat) : Option (Nat × Int) :=
  let power := decimalOrder x - count + 1
  let num := x.numerator * Nat.pow 10 (-power).toNat
  let den := x.denominator * Nat.pow 10 power.toNat
  let near := nearest num den
  let far := if near = num / den then near + 1 else num / den
  ([near, far].find? fun digits => f.ofDecimal digits power == some x).map fun digits =>
    if digits = Nat.pow 10 count then (1, power + count) else (digits, power)

/-- The fewest digits that round to a magnitude, and the power of ten of the last one. -/
def shortest (f : Floating) (x : Magnitude) : Nat × Int :=
  if x.isZero then (0, 0)
  else ((List.range 17).findSome? fun n => decimalWith? f x (n + 1)).getD (0, 0)

end Floating

end SelfWiring
