import SelfWiring.Json.Basic

/-! # Printing JSON documents

Documents are printed without blanks. In a string the quote, the backslash and the controls below
U+0020 are escaped, the latter with a letter where there is one; every other character stands for
itself.
-/

namespace SelfWiring.Json

/-- The lower-case hexadecimal digit of a number below 16. -/
def hexDigit (n : Nat) : Char := Nat.digitChar n

def escaped (c : Char) : List Char :=
  if c = '"' then ['\\', '"']
  else if c = '\\' then ['\\', '\\']
  else if c = '\x08' then ['\\', 'b']
  else if c = '\x0c' then ['\\', 'f']
  else if c = '\n' then ['\\', 'n']
  else if c = '\r' then ['\\', 'r']
  else if c = '\t' then ['\\', 't']
  else if c.toNat < 0x20 then
    ['\\', 'u', '0', '0', hexDigit (c.toNat / 16), hexDigit (c.toNat % 16)]
  else [c]

/-- A string between its quotes. One that stands for no text is written as a lone half. -/
def renderString : Option String → List Char
  | some s => '"' :: (s.toList.flatMap escaped ++ ['"'])
  | none => "\"\\ud800\"".toList

/-- Written forms separated by commas. -/
def separated : List (List Char) → List Char
  | [] => []
  | [x] => x
  | x :: xs => x ++ ',' :: separated xs

mutual
def render : Json → List Char
  | .null => ['n', 'u', 'l', 'l']
  | .bool true => ['t', 'r', 'u', 'e']
  | .bool false => ['f', 'a', 'l', 's', 'e']
  | .number n => n.render
  | .string s => renderString s
  | .array items => '[' :: (separated (renderItems items) ++ [']'])
  | .object members => '{' :: (separated (renderMembers members) ++ ['}'])
def renderItems : List Json → List (List Char)
  | [] => []
  | j :: js => render j :: renderItems js
def renderMembers : List (Option String × Json) → List (List Char)
  | [] => []
  | (name, j) :: ms => (renderString name ++ ':' :: render j) :: renderMembers ms
end

def print (j : Json) : String := String.ofList (render j)

end SelfWiring.Json
