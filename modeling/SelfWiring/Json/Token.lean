import SelfWiring.Json.Basic

/-! # JSON tokens

The lexical layer of JSON. Blanks between tokens leave no trace, and a string token holds the text
that its escapes stand for, so two documents that differ only in layout or in the spelling of their
strings have the same tokens. `lex` reads its text in one pass from left to right.
-/

namespace SelfWiring.Json

inductive Token where
  | openBrace
  | closeBrace
  | openBracket
  | closeBracket
  | colon
  | comma
  | null
  | bool (b : Bool)
  | number (n : Numeral)
  | string (s : Option String)
  deriving DecidableEq

/-- One element of a string: a character, or a half of a surrogate pair written as an escape. -/
inductive Unit16 where
  | char (c : Char)
  | half (n : Nat)
  deriving DecidableEq

/-- The scalar value of a surrogate pair. -/
def pair? (high low : Nat) : Option Char :=
  if 0xD800 ≤ high ∧ high < 0xDC00 ∧ 0xDC00 ≤ low ∧ low < 0xE000 then
    some (Char.ofNat (0x10000 + (high - 0xD800) * 0x400 + (low - 0xDC00)))
  else none

/-- The characters of a string, unless a half stands alone. -/
def join? : List Unit16 → Option (List Char)
  | [] => some []
  | .char c :: rest => (join? rest).map (c :: ·)
  | .half high :: .half low :: rest =>
    (pair? high low).bind fun c => (join? rest).map (c :: ·)
  | .half _ :: _ => none

def hexValue? (c : Char) : Option Nat :=
  if c.isDigit then some (c.toNat - '0'.toNat)
  else if 'a' ≤ c ∧ c ≤ 'f' then some (c.toNat - 'a'.toNat + 10)
  else if 'A' ≤ c ∧ c ≤ 'F' then some (c.toNat - 'A'.toNat + 10)
  else none

/-- The element that a four-digit escape names. -/
def unitOfCode (n : Nat) : Unit16 :=
  if 0xD800 ≤ n ∧ n < 0xE000 then .half n else .char (Char.ofNat n)

/-- The character that a one-letter escape names. -/
def escape? : Char → Option Char
  | '"' => some '"'
  | '\\' => some '\\'
  | '/' => some '/'
  | 'b' => some '\x08'
  | 'f' => some '\x0c'
  | 'n' => some '\n'
  | 'r' => some '\r'
  | 't' => some '\t'
  | _ => none

def isBlank (c : Char) : Bool := c == ' ' || c == '\n' || c == '\t' || c == '\r'

/-- Whether a character can stand in a number or a literal. -/
def isBare (c : Char) : Bool := c.isAlphanum || c == '+' || c == '-' || c == '.'

/-- The token that a run of bare characters spells. -/
def bareToken? (run : List Char) : Option Token :=
  if run = ['t', 'r', 'u', 'e'] then some (.bool true)
  else if run = ['f', 'a', 'l', 's', 'e'] then some (.bool false)
  else if run = ['n', 'u', 'l', 'l'] then some .null
  else (Numeral.read? run).map .number

def punctuation? : Char → Option Token
  | '{' => some .openBrace
  | '}' => some .closeBrace
  | '[' => some .openBracket
  | ']' => some .closeBracket
  | ':' => some .colon
  | ',' => some .comma
  | _ => none

/-- Where the reader stands. Elements and runs already read are kept in reverse. -/
inductive Mode where
  | between
  | inBare (run : List Char)
  | inString (units : List Unit16)
  | afterBackslash (units : List Unit16)
  | inCode (units : List Unit16) (left value : Nat)

/-- What a character outside strings and bare runs begins: tokens complete at once, and the mode
that follows. -/
def start? (c : Char) : Option (List Token × Mode) :=
  if isBlank c then some ([], .between)
  else if c = '"' then some ([], .inString [])
  else if isBare c then some ([], .inBare [c])
  else (punctuation? c).map fun t => ([t], .between)

def lexFrom : Mode → List Char → Option (List Token)
  | .between, [] => some []
  | .inBare run, [] => (bareToken? run.reverse).map fun t => [t]
  | _, [] => none
  | .between, c :: cs =>
    (start? c).bind fun (ts, m) => (lexFrom m cs).map (ts ++ ·)
  | .inBare run, c :: cs =>
    if isBare c then lexFrom (.inBare (c :: run)) cs
    else (bareToken? run.reverse).bind fun t =>
      (start? c).bind fun (ts, m) => (lexFrom m cs).map (t :: ts ++ ·)
  | .inString units, c :: cs =>
    if c = '"' then
      (lexFrom .between cs).map (.string ((join? units.reverse).map String.ofList) :: ·)
    else if c = '\\' then lexFrom (.afterBackslash units) cs
    else if c.toNat < 0x20 then none
    else lexFrom (.inString (.char c :: units)) cs
  | .afterBackslash units, c :: cs =>
    if c = 'u' then lexFrom (.inCode units 3 0) cs
    else (escape? c).bind fun e => lexFrom (.inString (.char e :: units)) cs
  | .inCode units left value, c :: cs =>
    (hexValue? c).bind fun d =>
      match left with
      | 0 => lexFrom (.inString (unitOfCode (value * 16 + d) :: units)) cs
      | left + 1 => lexFrom (.inCode units left (value * 16 + d)) cs

/-- The tokens of a text, if it is made of tokens and blanks. -/
def lex (text : List Char) : Option (List Token) := lexFrom .between text

end SelfWiring.Json
