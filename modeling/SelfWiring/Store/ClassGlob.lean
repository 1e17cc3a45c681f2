/-! # Key patterns of the table store

These patterns know classes beside `?` and `*`: `[abc]`, ranges `[a-c]` and negations `[^abc]`. A
closing bracket directly behind the opening one, or behind the caret, belongs to the class. A class
that is never closed matches nothing. Patterns and texts end at the first U+0000, and the two
noncharacters U+FFFE and U+FFFF are read as U+FFFD.

What stands before the first wildcard is looked up: a text must begin with it as it stands, and only
then is it matched.

A pattern is read into elements once, and the elements are matched from the last to the first:
`row es text` says for the text and each of its suffixes whether `es` matches it.
-/

namespace SelfWiring.ClassGlob

inductive Element where
  | anyText
  | anyChar
  | literal (c : Char)
  | oneOf (negated : Bool) (ranges : List (Char × Char))
  | never

/-- The ranges of a class up to its closing bracket, and what follows it. `prior` is the character
that a hyphen would start a range from. -/
def ranges? (prior : Option Char) : List Char → Option (List (Char × Char) × List Char)
  | [] => none
  | ']' :: rest => some ([], rest)
  | '-' :: high :: rest =>
    match prior with
    | some low =>
      if high = ']' then
        (ranges? (some '-') (high :: rest)).map fun (rs, r) => (('-', '-') :: rs, r)
      else (ranges? none rest).map fun (rs, r) => ((low, high) :: rs, r)
    | none => (ranges? (some '-') (high :: rest)).map fun (rs, r) => (('-', '-') :: rs, r)
  | c :: rest => (ranges? (some c) rest).map fun (rs, r) => ((c, c) :: rs, r)

/-- The ranges of a class, where a bracket at the head belongs to it. -/
def members? : List Char → Option (List (Char × Char) × List Char)
  | ']' :: rest => (ranges? none rest).map fun (rs, r) => ((']', ']') :: rs, r)
  | cs => ranges? none cs

/-- The element that a class text begins with, and what follows it. -/
def class? : List Char → Option (Element × List Char)
  | '^' :: rest => (members? rest).map fun (rs, r) => (.oneOf true rs, r)
  | cs => (members? cs).map fun (rs, r) => (.oneOf false rs, r)

/-- The elements of a pattern; `fuel` bounds its length. -/
def elements : (fuel : Nat) → List Char → List Element
  | 0, _ => []
  | _, [] => []
  | fuel + 1, '*' :: rest => .anyText :: elements fuel rest
  | fuel + 1, '?' :: rest => .anyChar :: elements fuel rest
  | fuel + 1, '[' :: rest =>
    match class? rest with
    | some (e, r) => e :: elements fuel r
    | none => [.never]
  | fuel + 1, c :: rest => .literal c :: elements fuel rest

def Element.admitsChar (e : Element) (c : Char) : Bool :=
  match e with
  | .anyText => false
  | .anyChar => true
  | .literal d => c == d
  | .oneOf negated ranges => (ranges.any fun (low, high) => low ≤ c && c ≤ high) != negated
  | .never => false

/-- For each suffix: whether it or a shorter one is matched. -/
def orShorter : List Bool → List Bool
  | [] => []
  | b :: bs =>
    let rest := orShorter bs
    (b || rest.headD false) :: rest

def row : List Element → List Char → List Bool
  | [], text => text.map (fun _ => false) ++ [true]
  | .anyText :: es, text => orShorter (row es text)
  | e :: es, text =>
    List.zipWith (fun c b => e.admitsChar c && b) text (row es text).tail ++ [false]

/-- A character as it is read. -/
def seenAs (c : Char) : Char := if c = '\uFFFE' ∨ c = '\uFFFF' then '\uFFFD' else c

/-- What is read of a pattern or a text. -/
def seen (s : String) : List Char := (s.toList.takeWhile (· != '\x00')).map seenAs

def isLiteral (c : Char) : Bool := !(['*', '?', '[', '\x00'].contains c)

/-- What a pattern begins with before its first wildcard or its end. -/
def head (pattern : String) : List Char := pattern.toList.takeWhile isLiteral

/-- Whether a text begins with the head of a pattern. -/
def mayMatch (pattern text : String) : Bool := (head pattern).isPrefixOf text.toList

/-- Whether a pattern is too long for a text to be matched. -/
def isTooLong (pattern : String) : Bool := 50000 < pattern.utf8ByteSize

end SelfWiring.ClassGlob

namespace SelfWiring

/-- Whether a text matches a pattern with classes. -/
def classGlobMatch (pattern text : String) : Bool :=
  let cs := ClassGlob.seen pattern
  ClassGlob.mayMatch pattern text &&
    (ClassGlob.row (ClassGlob.elements cs.length cs) (ClassGlob.seen text)).headD false

end SelfWiring
