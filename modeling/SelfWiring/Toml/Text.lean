import SelfWiring.Json.Token

/-! # Strings in a settings file

A string has four written forms. Between double quotes escapes are understood, between single quotes
every character stands for itself, and tripled quotes of either sort let the string run over several
lines. A line break directly behind opening tripled quotes does not count, and one or two quotes may
stand directly before closing ones. Line breaks inside a string are read as U+000A.

`readForm?` reads a string from the text behind its opening quotes, and `render` writes one in the
plainest form that can hold it.
-/

namespace SelfWiring.Toml

/-- The characters that stand for themselves between any quotes. -/
def isPlain (c : Char) : Bool := c == '\t' || (0x20 ≤ c.toNat && c.toNat != 0x7F)

/-- A character that a text begins with, put in front of the text that follows. -/
def consText (c : Char) (r : Option (List Char × List Char)) : Option (List Char × List Char) :=
  r.map fun (s, rest) => (c :: s, rest)

/-- Where the reader of an escaped string stands. -/
inductive Mode where
  | plain
  | afterBackslash
  /-- In the digits of an escape. -/
  | inCode (left value : Nat)
  /-- Behind a backslash and blanks that must end their line. -/
  | toLineEnd
  /-- In the blanks and line breaks behind a backslash that ended its line. -/
  | inGap
  deriving DecidableEq

/-- The character that a one-letter escape names. -/
def escape? : Char → Option Char
  | '"' => some '"'
  | '\\' => some '\\'
  | 'b' => some '\x08'
  | 'f' => some '\x0c'
  | 'n' => some '\n'
  | 'r' => some '\r'
  | 't' => some '\t'
  | _ => none

/-- The character with a given code, if there is one. -/
def scalar? (n : Nat) : Option Char := if n.isValidChar then some (Char.ofNat n) else none

def isBlank (c : Char) : Bool := c == ' ' || c == '\t'

/-- What a quote that was just read closes when the string has tripled quotes: the quotes that still
belong to the string, and what follows it. -/
def closeLong? (quote : Char) (cs : List Char) : Option (List Char × List Char) :=
  let more := min (cs.takeWhile (· == quote)).length 4
  if more < 2 then none else some (List.replicate (more - 2) quote, cs.drop more)

/-- The string up to its closing double quotes, tripled if it is `long`, and what follows it. -/
def readEscaped (long : Bool) : Mode → List Char → Option (List Char × List Char)
  | _, [] => none
  | .afterBackslash, c :: cs =>
    if c = 'u' then readEscaped long (.inCode 3 0) cs
    else if c = 'U' then readEscaped long (.inCode 7 0) cs
    else if long && isBlank c then readEscaped long .toLineEnd cs
    else if long && c == '\n' then readEscaped long .inGap cs
    else (escape? c).bind fun e => consText e (readEscaped long .plain cs)
  | .inCode left value, c :: cs =>
    (Json.hexValue? c).bind fun d =>
      match left with
      | 0 => (scalar? (value * 16 + d)).bind fun e => consText e (readEscaped long .plain cs)
      | left + 1 => readEscaped long (.inCode left (value * 16 + d)) cs
  | .toLineEnd, c :: cs =>
    if isBlank c then readEscaped long .toLineEnd cs
    else if c = '\n' then readEscaped long .inGap cs
    else none
  | mode, c :: cs =>
    if mode = .inGap ∧ (isBlank c || c == '\n') then readEscaped long .inGap cs
    else if c = '"' then
      if long then
        match closeLong? '"' cs with
        | some r => some r
        | none => consText '"' (readEscaped long .plain cs)
      else some ([], cs)
    else if c = '\\' then readEscaped long .afterBackslash cs
    else if isPlain c || (long && c == '\n') then consText c (readEscaped long .plain cs)
    else none

/-- The string up to its closing single quotes, tripled if it is `long`, and what follows it. -/
def readLiteral (long : Bool) : List Char → Option (List Char × List Char)
  | [] => none
  | c :: cs =>
    if c = '\'' then
      if long then
        match closeLong? '\'' cs with
        | some r => some r
        | none => consText '\'' (readLiteral long cs)
      else some ([], cs)
    else if isPlain c || (long && c == '\n') then consText c (readLiteral long cs)
    else none

/-- A text without the line break that it begins with, if it begins with one. -/
def dropBreak : List Char → List Char
  | '\n' :: cs => cs
  | cs => cs

/-- A string on one line, as a key may be one, and what follows it. -/
def readShort? : List Char → Option (List Char × List Char)
  | '"' :: cs => readEscaped false .plain cs
  | '\'' :: cs => readLiteral false cs
  | _ => none

/-- A string in any of its forms, and what follows it. -/
def readString? : List Char → Option (List Char × List Char)
  | '"' :: '"' :: '"' :: cs => readEscaped true .plain (dropBreak cs)
  | '\'' :: '\'' :: '\'' :: cs => readLiteral true (dropBreak cs)
  | cs => readShort? cs

/-! ### Writing -/

/-- The upper-case hexadecimal digits of a number below `16 ^ 4`, all four of them. -/
def fourDigits (n : Nat) : List Char :=
  [n / 4096 % 16, n / 256 % 16, n / 16 % 16, n % 16].map fun d => (Nat.digitChar d).toUpper

/-- Whether a character can only be written as an escape. -/
def needsEscape (c : Char) : Bool := !(isPlain c || c == '\n')

/-- A character between double quotes; a line break stands for itself when `long`. -/
def escaped (long : Bool) (c : Char) : List Char :=
  if c = '\x08' then ['\\', 'b']
  else if c = '\t' then ['\\', 't']
  else if c = '\n' then if long then ['\n'] else ['\\', 'n']
  else if c = '\x0c' then ['\\', 'f']
  else if c = '\r' then ['\\', 'r']
  else if c = '"' then ['\\', '"']
  else if c = '\\' then ['\\', '\\']
  else if isPlain c then [c]
  else '\\' :: 'u' :: fourDigits c.toNat

/-- The characters between tripled double quotes, when `quotes` quotes stand directly before them:
every third quote of a run is escaped. -/
def escapedLong : (quotes : Nat) → List Char → List Char
  | _, [] => []
  | quotes, c :: cs =>
    if c = '"' then
      if quotes < 2 then '"' :: escapedLong (quotes + 1) cs
      else escaped true '"' ++ escapedLong 0 cs
    else escaped true c ++ escapedLong 0 cs

/-- The length of the longest run of a character. -/
def longestRun (c : Char) : (present : Nat) → List Char → Nat
  | present, [] => present
  | present, d :: ds =>
    if d = c then longestRun c (present + 1) ds else max present (longestRun c 0 ds)

inductive Form where
  | basic
  | literal
  | longBasic
  | longLiteral
  deriving DecidableEq

/-- The form in which a string is written: the first that shows every character as it is, or one
with escapes where none does. -/
def formOf (s : List Char) : Form :=
  let escapes := s.any needsEscape
  let backslash := s.contains '\\'
  let double := longestRun '"' 0 s
  let single := longestRun '\'' 0 s
  let lines := s.contains '\n'
  if !escapes && !backslash && double == 0 && !lines then .basic
  else if !escapes && single == 0 && !lines then .literal
  else if !escapes && !backslash && double ≤ 2 then .longBasic
  else if !escapes && single ≤ 2 then .longLiteral
  else if lines then .longBasic
  else .basic

/-- A string of several lines begins on a line of its own. -/
def opening (s : List Char) : List Char := if s.contains '\n' then ['\n'] else []

/-- A string in a given form. -/
def renderAs (s : List Char) : Form → List Char
  | .basic => '"' :: (s.flatMap (escaped false) ++ ['"'])
  | .literal => '\'' :: (s ++ ['\''])
  | .longBasic => ['"', '"', '"'] ++ opening s ++ escapedLong 0 s ++ ['"', '"', '"']
  | .longLiteral => ['\'', '\'', '\''] ++ opening s ++ s ++ ['\'', '\'', '\'']

def render (s : List Char) : List Char := renderAs s (formOf s)

end SelfWiring.Toml
