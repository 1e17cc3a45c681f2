/-! # Cutting a text at a separator

`pieces sep s` are the stretches of `s` between the occurrences of `sep`, found from the left
without overlap. An empty separator stands at both ends and between all characters.
-/

namespace SelfWiring.Text

/-- Put a character in front of the first piece. -/
def extendFirst (c : Char) : List (List Char) → List (List Char)
  | [] => [[c]]
  | p :: ps => (c :: p) :: ps

/-- The pieces of a text whose first `skip` characters belong to a separator already found. -/
def cut (sep : List Char) : (skip : Nat) → List Char → List (List Char)
  | _, [] => [[]]
  | skip + 1, _ :: rest => cut sep skip rest
  | 0, c :: rest =>
    if sep.isPrefixOf (c :: rest) then [] :: cut sep (sep.length - 1) rest
    else extendFirst c (cut sep 0 rest)

def pieces (sep s : List Char) : List (List Char) :=
  if sep.isEmpty then [] :: (s.map ([·]) ++ [[]]) else cut sep 0 s

/-- Whether `part` stands somewhere in `s`. -/
def occursIn (part : List Char) : List Char → Bool
  | [] => part.isEmpty
  | c :: rest => part.isPrefixOf (c :: rest) || occursIn part rest

theorem cut_ne_nil (sep : List Char) (skip : Nat) (s : List Char) : cut sep skip s ≠ [] := by
  fun_induction cut sep skip s with
  | case1 => simp
  | case2 _ _ _ ih => exact ih
  | case3 => simp
  | case4 c rest _ _ =>
    cases cut sep 0 rest <;> simp [extendFirst]

end SelfWiring.Text
