import SelfWiring.Floating

/-! # Version cells

The version of a database stands in a column of integers. An integer is kept as it is. A text that
spells a number becomes an integer if the number is one, and the number is what the text comes to in
floating-point arithmetic: the digits that fit 64 bits, divided by ten as often as the exponent asks
in double extended precision, and then rounded to double precision. So `1.00000000000000000001` is
the integer one. All other texts stay texts.
-/

namespace SelfWiring

/-- A value in the version column. -/
inductive VersionCell where
  | integer (n : Int)
  | other
  deriving DecidableEq

namespace VersionCell

def isAsciiBlank (c : Char) : Bool := c == ' ' || (9 ≤ c.toNat && c.toNat ≤ 13)

/-- The text without the ASCII blanks at its ends. -/
def stripped (cs : List Char) : List Char :=
  ((cs.dropWhile isAsciiBlank).reverse.dropWhile isAsciiBlank).reverse

/-- The exponent that digits spell. One of more than five digits counts as ten thousand or a little
more, which is beyond every number all the same. -/
def exponentOf (ds : List Char) : Nat :=
  ds.foldl (fun e d => if e < 10000 then e * 10 + (d.toNat - '0'.toNat) else 10000) 0

/-- The exponent that ends a number: none written counts as zero. -/
def exponent? : List Char → Option Int
  | [] => some 0
  | e :: rest =>
    if e = 'e' ∨ e = 'E' then
      match rest with
      | '-' :: ds => (natural? ds).map fun n => -(n : Int)
      | '+' :: ds => (natural? ds).map fun n => (n : Int)
      | ds => (natural? ds).map fun n => (n : Int)
    else none
where
  natural? (ds : List Char) : Option Nat :=
    if ds.isEmpty || !ds.all Char.isDigit then none else some (exponentOf ds)

/-- An unsigned decimal number in parts. -/
structure Spelling where
  whole : List Char
  fraction : List Char
  /-- Whether there is neither a point nor an exponent. -/
  isPlain : Bool
  exponent : Int

/-- The parts of an unsigned decimal number. -/
def spelling? (cs : List Char) : Option Spelling :=
  let whole := cs.takeWhile Char.isDigit
  let rest := cs.dropWhile Char.isDigit
  let (fraction, tail) := match rest with
    | '.' :: r => (r.takeWhile Char.isDigit, r.dropWhile Char.isDigit)
    | r => ([], r)
  if whole.isEmpty && fraction.isEmpty then none
  else (exponent? tail).map fun exponent => { whole, fraction, isPlain := rest.isEmpty, exponent }

/-- Take digits into a number until one more digit might not fit 64 bits; the digits left over. -/
def takeIn (n : Nat) : List Char → Nat × List Char
  | [] => (n, [])
  | d :: ds =>
    if n < 1844674407370955160 then takeIn (n * 10 + (d.toNat - '0'.toNat)) ds else (n, d :: ds)

/-- The digits that count, and the power of ten that they are multiplied by. -/
def Spelling.scaled (s : Spelling) : Nat × Int :=
  let (n, dropped) := takeIn 0 s.whole
  let (n, ignored) := takeIn n s.fraction
  (n, s.exponent + dropped.length + ignored.length - s.fraction.length)

/-- Divide digits by a power of ten as long as they end in zero. -/
def withoutZeros : (power : Nat) → Nat → Nat × Nat
  | 0, n => (n, 0)
  | power + 1, n => if n % 10 = 0 then withoutZeros power (n / 10) else (n, power + 1)

/-- Multiply by a negative power of ten some times over, rounding each time. -/
def shrink (power : Nat) : (times : Nat) → Magnitude → Magnitude
  | 0, x => x
  | times + 1, x =>
    let factor := (Floating.extended.round 1 (Nat.pow 10 power)).getD .zero
    shrink power times ((Floating.extended.mul x factor).getD .zero)

/-- Digits divided by a power of ten: by hundreds of places, then by tens, then one by one. -/
def divided (digits power : Nat) : Magnitude :=
  let x := (Floating.extended.ofNat digits).getD .zero
  let x := shrink 100 (power / 100) x
  let x := shrink 10 (power % 100 / 10) x
  shrink 1 (power % 10) x

/-- The natural number below `2 ^ 63` that digits times a power of ten come to, if they come to
one. -/
def natural? (digits : Nat) (power : Int) : Option Nat :=
  if digits = 0 then some 0
  else if 20 < power then none
  else
    let value := if 0 ≤ power then Floating.double.ofNat (digits * Nat.pow 10 power.toNat)
      else
        let (digits, power) := withoutZeros (-power).toNat digits
        let x := divided digits power
        Floating.double.round x.numerator x.denominator
    (value.bind Magnitude.toNat?).filter (· < 0x8000000000000000)

/-- What the column makes of a text. -/
def ofText (s : String) : VersionCell :=
  let (negative, cs) := match stripped s.toList with
    | '-' :: r => (true, r)
    | '+' :: r => (false, r)
    | r => (false, r)
  match spelling? cs with
  | none => other
  | some parts =>
    let exact := Nat.ofDigitChars 10 parts.whole 0
    let size := if parts.isPlain && exact < 0x8000000000000000 then some exact
      else natural? parts.scaled.1 parts.scaled.2
    match size with
    | some n => integer (if negative then -(n : Int) else n)
    | none => other

end VersionCell

end SelfWiring
