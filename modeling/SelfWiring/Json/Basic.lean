import SelfWiring.Floating
import SelfWiring.Text.Integer

/-! # JSON documents

A document as it is written: the members of an object keep their order and their repetitions, and a
number keeps the difference between an integer and a real. A string is `none` when it names half of
a surrogate pair: such a string is well written but stands for no text.
-/

namespace SelfWiring

/-- A JSON number. `-0` and every number with a fraction or an exponent are reals, read in double
precision; a real that is too large has no size. -/
inductive Numeral where
  | integer (n : Int)
  | real (negative : Bool) (size : Option Magnitude)
  deriving DecidableEq, Inhabited

inductive Json where
  | null
  | bool (b : Bool)
  | number (n : Numeral)
  | string (s : Option String)
  | array (items : List Json)
  | object (members : List (Option String × Json))
  deriving Inhabited

namespace Numeral

/-- The digits at the head of a text, and the rest. -/
def splitDigits (cs : List Char) : List Char × List Char :=
  (cs.takeWhile Char.isDigit, cs.dropWhile Char.isDigit)

def natOfDigits (ds : List Char) : Nat := Nat.ofDigitChars 10 ds 0

/-- The value of an exponent part without its letter. -/
def exponent? (cs : List Char) : Option Int :=
  let signed := match cs with
    | '+' :: r => (1, r)
    | '-' :: r => (-1, r)
    | r => ((1 : Int), r)
  match splitDigits signed.2 with
  | ([], _) => none
  | (ds, []) => some (signed.1 * natOfDigits ds)
  | _ => none

/-- The fraction digits and the exponent that follow the whole part of a number. -/
def tail? : List Char → Option (List Char × Option Int)
  | [] => some ([], none)
  | 'e' :: r => (exponent? r).map fun e => ([], some e)
  | 'E' :: r => (exponent? r).map fun e => ([], some e)
  | '.' :: r =>
    match splitDigits r with
    | ([], _) => none
    | (ds, []) => some (ds, none)
    | (ds, 'e' :: r) => (exponent? r).map fun e => (ds, some e)
    | (ds, 'E' :: r) => (exponent? r).map fun e => (ds, some e)
    | _ => none
  | _ => none

/-- Take digits into a number while it stays below 64 bits; the digits that are left over. -/
def takeIn (n : Nat) : List Char → Nat × List Char
  | [] => (n, [])
  | d :: ds =>
    let more := n * 10 + (d.toNat - '0'.toNat)
    if more < 0x10000000000000000 then takeIn more ds else (n, d :: ds)

/-- The double-precision power of ten. -/
def powerOfTen (n : Nat) : Magnitude := (Floating.double.round (Nat.pow 10 n) 1).getD .zero

/-- A magnitude times a power of ten, by one multiplication or division by a power of ten up to
308, after as many divisions by the greatest of these as it takes. -/
def scale (x : Magnitude) (power : Int) : Option Magnitude :=
  if 308 < power then if x.isZero then some x else none
  else if 0 ≤ power then Floating.double.mul x (powerOfTen power.toNat)
  else if -308 ≤ power then Floating.double.div x (powerOfTen (-power).toNat)
  else if x.isZero then some x
  else (Floating.double.div x (powerOfTen 308)).bind (scale · (power + 308))
termination_by (-power).toNat

/-- The size that the digits of a number and its exponent are read as. Of a whole part that does not
fit 64 bits the last digits count as zeros; fraction digits that do not fit do not count. -/
def size? (whole fraction : List Char) (exponent : Int) : Option Magnitude :=
  let (n, dropped) := takeIn 0 whole
  let (n, ignored) := takeIn n fraction
  (Floating.double.ofNat n).bind
    (scale · (exponent + dropped.length + ignored.length - fraction.length))

/-- The number with the given sign, whole digits, fraction digits and exponent. -/
def assemble (negative : Bool) (whole fraction : List Char) : Option Int → Numeral
  | none =>
    if fraction.isEmpty && !(negative && natOfDigits whole == 0) then
      integer (if negative then -(natOfDigits whole : Int) else natOfDigits whole)
    else real negative (size? whole fraction 0)
  | some e => real negative (size? whole fraction e)

/-- A number without its sign. The whole part has no superfluous leading zero. -/
def unsigned? (negative : Bool) (cs : List Char) : Option Numeral :=
  match splitDigits cs with
  | ([], _) => none
  | ('0' :: _ :: _, _) => none
  | (whole, rest) => (tail? rest).map fun (fraction, e) => assemble negative whole fraction e

def read? : List Char → Option Numeral
  | '-' :: cs => unsigned? true cs
  | cs => unsigned? false cs

/-- The text of decimal digits whose last one stands at a power of ten: with a point between five
places before the digits and sixteen after the first, with an exponent elsewhere. -/
def renderReal (digits : List Char) (power : Int) : List Char :=
  let point := digits.length + power
  let zeros := fun (n : Int) => List.replicate n.toNat '0'
  if 0 ≤ power && point ≤ 16 then digits ++ zeros power ++ ['.', '0']
  else if 0 < point && point ≤ 16 then digits.take point.toNat ++ '.' :: digits.drop point.toNat
  else if -5 < point && point ≤ 0 then '0' :: '.' :: (zeros (-point) ++ digits)
  else
    let fraction := if digits.length = 1 then [] else '.' :: digits.drop 1
    digits.take 1 ++ fraction ++ 'e' :: Text.Integer.render (point - 1)

def render : Numeral → List Char
  | integer n => Text.Integer.render n
  | real negative size =>
    let text := match size with
      | none => ['1', 'e', '9', '9', '9']
      | some x =>
        let (digits, power) := Floating.double.shortest x
        renderReal (Nat.toDigits 10 digits) power
    if negative then '-' :: text else text

/-- The number as it is kept: an integer within 64 bits, signed or unsigned, or a real within the
double-precision range. -/
def kept? : Numeral → Option Numeral
  | integer n =>
    if -0x8000000000000000 ≤ n ∧ n < 0x10000000000000000 then some (integer n)
    else
      let size := size? (Nat.toDigits 10 n.natAbs) [] 0
      size.map fun _ => real (n < 0) size
  | real negative size => size.map fun _ => real negative size

end Numeral

end SelfWiring
