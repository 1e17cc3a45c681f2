/-! # Minted identifiers

Identifiers are numbers written in Crockford's base 32 with at least 26 digits, the shape of a
ULID. Two numbers never share a text, so a supply that counts upwards never repeats itself, and no
identifier holds a colon or a pattern character.
-/

namespace SelfWiring.Identifier

/-- The 32 digits: the decimal digits and the letters without I, L, O and U. -/
def alphabet : List Char := "0123456789ABCDEFGHJKMNPQRSTVWXYZ".toList

def digit (n : Nat) : Char := alphabet.getD n '0'

/-- The base-32 digits of a number, `width` of them, or more where the number needs more. -/
def digits : (width : Nat) → Nat → List Char
  | 0, 0 => []
  | 0, n + 1 => digits 0 ((n + 1) / 32) ++ [digit ((n + 1) % 32)]
  | width + 1, n => digits width (n / 32) ++ [digit (n % 32)]
termination_by width n => (width, n)
decreasing_by
  · exact Prod.Lex.right _ (by omega)
  · exact Prod.Lex.left _ _ (by omega)

/-- The text of the `n`-th identifier. -/
def render (n : Nat) : String := String.ofList (digits 26 n)

end SelfWiring.Identifier
