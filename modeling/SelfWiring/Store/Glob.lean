/-! # Key patterns of the memory store

In a pattern `?` stands for any one character and `*` for any stretch of text. The matcher goes
through pattern and text together. A star is remembered together with the text that stood at it,
and when the pattern fails later, the text at the last star gives up one character and the part of
the pattern behind the star is tried again.

A character of the pattern that equals the character of the text is used up on it before its
meaning as a star is considered.
-/

namespace SelfWiring.Glob

/-- What comes of matching up to the next star. -/
inductive Stretch where
  /-- The text is used up; the answer is known. -/
  | decided (answer : Bool)
  /-- A star was met: the pattern behind it and the text at it. -/
  | star (pattern text : List Char)
  | stuck

/-- Match a pattern and a text from their heads on, up to a star. -/
def stretch : List Char → List Char → Stretch
  | pattern, [] => .decided (pattern.all (· == '*'))
  | [], _ :: _ => .stuck
  | d :: pattern, c :: text =>
    if d = '?' ∨ d = c then stretch pattern text
    else if d = '*' then .star pattern (c :: text)
    else .stuck

theorem length_lt_of_stretch_eq_star {p t q u : List Char} (h : stretch p t = .star q u) :
    q.length < p.length := by
  fun_induction stretch p t with
  | case1 => simp at h
  | case2 => simp at h
  | case3 _ _ _ _ _ ih => exact Nat.lt_succ_of_lt (ih h)
  | case4 => simp_all
  | case5 => simp at h

/-- Match the pattern behind a star at some suffix of the text at the star. -/
def behindStar (pattern text : List Char) : Bool :=
  match _h : stretch pattern text with
  | .decided answer => answer
  | .star pattern' text' => behindStar pattern' text'
  | .stuck =>
    match text with
    | [] => false
    | _ :: rest => behindStar pattern rest
termination_by (pattern.length, text.length)
decreasing_by
  · exact Prod.Lex.left _ _ (length_lt_of_stretch_eq_star _h)
  · exact Prod.Lex.right _ (by simp)

def matchChars (pattern text : List Char) : Bool :=
  match stretch pattern text with
  | .decided answer => answer
  | .star pattern' text' => behindStar pattern' text'
  | .stuck => false

end SelfWiring.Glob

namespace SelfWiring

/-- Whether a text matches a pattern of `?` and `*`. -/
def globMatch (pattern text : String) : Bool := Glob.matchChars pattern.toList text.toList

end SelfWiring
