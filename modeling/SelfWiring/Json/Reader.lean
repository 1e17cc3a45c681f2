import SelfWiring.Json.Token

/-! # Reading JSON documents

`ofTokens?` reads exactly one document from a list of tokens. It keeps the arrays and objects that
are still open on a stack and looks at each token once, so it needs no bound on their depth.
-/

namespace SelfWiring.Json

abbrev Member := Option String × Json

/-- An array or object that is still open, with what it holds so far in reverse. -/
inductive Frame where
  | array (items : List Json)
  | member (members : List Member) (name : Option String)

/-- What may come next. -/
inductive Expect where
  | value
  /-- The first item of an array, or its end. -/
  | firstItem
  /-- The first member of an object, or its end. -/
  | firstMember
  /-- The name of a further member. -/
  | name (members : List Member)
  | colon (members : List Member) (name : Option String)
  /-- A value is complete. -/
  | done (j : Json)

/-- The state after a token that begins a value. -/
def begin? (stack : List Frame) : Token → Option (List Frame × Expect)
  | .null => some (stack, .done .null)
  | .bool b => some (stack, .done (.bool b))
  | .number n => some (stack, .done (.number n))
  | .string s => some (stack, .done (.string s))
  | .openBracket => some (.array [] :: stack, .firstItem)
  | .openBrace => some (stack, .firstMember)
  | _ => none

/-- The state after one more token. -/
def advance? : List Frame → Expect → Token → Option (List Frame × Expect)
  | stack, .value, t => begin? stack t
  | .array items :: stack, .firstItem, .closeBracket => some (stack, .done (.array items.reverse))
  | stack, .firstItem, t => begin? stack t
  | stack, .firstMember, .closeBrace => some (stack, .done (.object []))
  | stack, .firstMember, .string s => some (stack, .colon [] s)
  | stack, .name ms, .string s => some (stack, .colon ms s)
  | stack, .colon ms s, .colon => some (.member ms s :: stack, .value)
  | .array items :: stack, .done j, .comma => some (.array (j :: items) :: stack, .value)
  | .array items :: stack, .done j, .closeBracket =>
    some (stack, .done (.array (j :: items).reverse))
  | .member ms s :: stack, .done j, .comma => some (stack, .name ((s, j) :: ms))
  | .member ms s :: stack, .done j, .closeBrace =>
    some (stack, .done (.object ((s, j) :: ms).reverse))
  | _, _, _ => none

def readFrom : List Frame → Expect → List Token → Option Json
  | [], .done j, [] => some j
  | _, _, [] => none
  | stack, e, t :: ts => (advance? stack e t).bind fun (stack, e) => readFrom stack e ts

def ofTokens? (ts : List Token) : Option Json := readFrom [] .value ts

/-- The document that a text holds, if it holds one and nothing else. -/
def read? (text : String) : Option Json := (lex text.toList).bind ofTokens?

mutual
/-- How deep arrays and objects are nested. -/
def depth : Json → Nat
  | .array items => depthItems items + 1
  | .object members => depthMembers members + 1
  | _ => 0
def depthItems : List Json → Nat
  | [] => 0
  | j :: js => max (depth j) (depthItems js)
def depthMembers : List Member → Nat
  | [] => 0
  | (_, j) :: ms => max (depth j) (depthMembers ms)
end

mutual
/-- The document as it is kept, where every string stands for a text and every number is in
range. -/
def kept? : Json → Option Json
  | .number n => n.kept?.map .number
  | .string none => none
  | .array items => (keptItems? items).map .array
  | .object members => (keptMembers? members).map .object
  | j => some j
def keptItems? : List Json → Option (List Json)
  | [] => some []
  | j :: js => (kept? j).bind fun j => (keptItems? js).map (j :: ·)
def keptMembers? : List Member → Option (List Member)
  | [] => some []
  | (none, _) :: _ => none
  | (some name, j) :: ms =>
    (kept? j).bind fun j => (keptMembers? ms).map ((some name, j) :: ·)
end

/-- A document of any form that is nested at most 127 deep, as it is kept. -/
def readPlain? (text : String) : Option Json :=
  ((read? text).filter fun j => depth j ≤ 127).bind kept?

end SelfWiring.Json
