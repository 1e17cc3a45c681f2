import SelfWiring.Floating

/-! # Bare values in a settings file

Values that are written without quotes or brackets: integers in four bases, reals, truth values,
dates and times. Underscores may stand between the digits of a number. Only integers are kept with
their value; the others are checked and forgotten, because no setting has such a value.
-/

namespace SelfWiring.Toml

inductive Value where
  | text (s : String)
  | integer (n : Int)
  /-- A value of any other kind. -/
  | other
  deriving DecidableEq

/-- The characters of a bare value. -/
def isBare (c : Char) : Bool :=
  c.isAlphanum || c == '+' || c == '-' || c == '_' || c == '.' || c == ':'

/-- Digits with single underscores between them, without the underscores. -/
def grouped? (isDigit : Char → Bool) : List Char → Option (List Char)
  | [] => none
  | [c] => if isDigit c then some [c] else none
  | c :: '_' :: rest => if isDigit c then (grouped? isDigit rest).map (c :: ·) else none
  | c :: rest => if isDigit c then (grouped? isDigit rest).map (c :: ·) else none

/-- Decimal digits without a superfluous leading zero. -/
def decimal? (cs : List Char) : Option (List Char) :=
  (grouped? Char.isDigit cs).filter fun ds => ds.head? != some '0' || ds.length == 1

/-- A number without its sign, and whether it is negative. -/
def splitSign : List Char → Bool × List Char
  | '-' :: cs => (true, cs)
  | '+' :: cs => (false, cs)
  | cs => (false, cs)

def isBaseDigit (base : Nat) (c : Char) : Bool :=
  if base = 16 then c.isDigit || ('a' ≤ c && c ≤ 'f') || ('A' ≤ c && c ≤ 'F')
  else '0' ≤ c && c.toNat < '0'.toNat + base

def digitValue (c : Char) : Nat :=
  if c.isDigit then c.toNat - '0'.toNat
  else if c.isLower then c.toNat - 'a'.toNat + 10
  else c.toNat - 'A'.toNat + 10

/-- An unsigned number in a base other than ten. -/
def based? (base : Nat) (cs : List Char) : Option Int :=
  (grouped? (isBaseDigit base) cs).map fun ds => ds.foldl (fun n d => n * base + digitValue d) 0

/-- An integer in the signed 64-bit range. -/
def integer? (cs : List Char) : Option Int :=
  let unbounded : Option Int := match cs with
    | '0' :: 'x' :: ds => based? 16 ds
    | '0' :: 'o' :: ds => based? 8 ds
    | '0' :: 'b' :: ds => based? 2 ds
    | _ =>
      let (negative, ds) := splitSign cs
      (decimal? ds).map fun ds =>
        let n := (Nat.ofDigitChars 10 ds 0 : Int)
        if negative then -n else n
  unbounded.filter fun n => -0x8000000000000000 ≤ n && n < 0x8000000000000000

/-- The value of an exponent without its letter. -/
def exponent? (cs : List Char) : Option Int :=
  let (negative, ds) := splitSign cs
  (grouped? Char.isDigit ds).map fun ds =>
    let n := (Nat.ofDigitChars 10 ds 0 : Int)
    if negative then -n else n

def isExponentMark (c : Char) : Bool := c == 'e' || c == 'E'

/-- The digits and the power of ten of a number with a fraction, an exponent, or both. -/
def decimalReal? (cs : List Char) : Option (Nat × Int) :=
  let whole := cs.takeWhile fun c => c != '.' && !isExponentMark c
  let fraction := fun (r : List Char) => r.takeWhile fun c => !isExponentMark c
  let assemble := fun (ds fs : List Char) (e : Int) =>
    (Nat.ofDigitChars 10 (ds ++ fs) 0, e - fs.length)
  match decimal? whole, cs.dropWhile fun c => c != '.' && !isExponentMark c with
  | some ds, '.' :: r =>
    (grouped? Char.isDigit (fraction r)).bind fun fs =>
      match r.dropWhile fun c => !isExponentMark c with
      | [] => some (assemble ds fs 0)
      | _ :: e => (exponent? e).map (assemble ds fs)
  | some ds, _ :: e => (exponent? e).map (assemble ds [])
  | _, _ => none

/-- Whether a bare value is a real. One beyond the range of finite doubles is none, unless it is
negative. -/
def isReal (cs : List Char) : Bool :=
  let (negative, ds) := splitSign cs
  if ds = ['i', 'n', 'f'] || ds = ['n', 'a', 'n'] then true
  else match decimalReal? ds with
    | some (digits, power) => negative || (Floating.double.ofDecimal digits power).isSome
    | none => false

/-- The number that exactly `n` digits stand for, and what follows them. -/
def fixed? (n : Nat) (cs : List Char) : Option (Nat × List Char) :=
  let ds := cs.take n
  if ds.length = n && ds.all Char.isDigit then some (Nat.ofDigitChars 10 ds 0, cs.drop n) else none

/-- A character that must come next. -/
def expect? (c : Char) : List Char → Option (List Char)
  | d :: cs => if d = c then some cs else none
  | [] => none

def daysIn (year month : Nat) : Nat :=
  if month = 2 then
    if year % 4 = 0 && (year % 100 != 0 || year % 400 = 0) then 29 else 28
  else if [4, 6, 9, 11].contains month then 30
  else 31

/-- What follows a date. -/
def date? (cs : List Char) : Option (List Char) := do
  let (year, cs) ← fixed? 4 cs
  let cs ← expect? '-' cs
  let (month, cs) ← fixed? 2 cs
  let cs ← expect? '-' cs
  let (day, cs) ← fixed? 2 cs
  if 1 ≤ month && month ≤ 12 && 1 ≤ day && day ≤ daysIn year month then some cs else none

/-- What follows an hour and a minute. -/
def clock? (cs : List Char) : Option (List Char) := do
  let (hour, cs) ← fixed? 2 cs
  let cs ← expect? ':' cs
  let (minute, cs) ← fixed? 2 cs
  if hour ≤ 23 && minute ≤ 59 then some cs else none

/-- What follows a time of day. -/
def time? (cs : List Char) : Option (List Char) := do
  let cs ← clock? cs
  let cs ← expect? ':' cs
  let (second, cs) ← fixed? 2 cs
  if second ≤ 60 then
    match cs with
    | '.' :: r => if (r.headD 'x').isDigit then some (r.dropWhile Char.isDigit) else none
    | _ => some cs
  else none

/-- Whether a text is nothing or an offset from universal time. -/
def isOffset : List Char → Bool
  | [] => true
  | ['Z'] => true
  | ['z'] => true
  | '+' :: cs => clock? cs == some []
  | '-' :: cs => clock? cs == some []
  | _ => false

/-- Whether a text is a date, a time, or both with or without an offset. -/
def isMoment (cs : List Char) : Bool :=
  time? cs == some [] ||
    match date? cs with
    | some [] => true
    | some (c :: r) => (c == 'T' || c == 't' || c == ' ') && (time? r).any isOffset
    | none => false

/-- The value that a bare word spells. -/
def scalar (cs : List Char) : Option Value :=
  if cs = ['t', 'r', 'u', 'e'] || cs = ['f', 'a', 'l', 's', 'e'] then some .other
  else match integer? cs with
    | some n => some (.integer n)
    | none => if isReal cs || isMoment cs then some .other else none

/-- A bare value and what follows it. A blank may stand between a date and a time. -/
def readBare? (cs : List Char) : Option (Value × List Char) :=
  let word := cs.takeWhile isBare
  let rest := cs.dropWhile isBare
  match date? word, rest with
  | some [], ' ' :: r =>
    match fixed? 2 r with
    | some (_, ':' :: _) =>
      (scalar (word ++ ' ' :: r.takeWhile isBare)).map fun v => (v, r.dropWhile isBare)
    | _ => (scalar word).map fun v => (v, rest)
  | _, _ => (scalar word).map fun v => (v, rest)

end SelfWiring.Toml
