import SelfWiring.Text.Pieces

/-! # Colours

Parts of a line are painted with terminal codes, or left as they are when colours are off. Where a
painted text itself switches colours off, its own colour is switched on again.
-/

namespace SelfWiring.CommandLine

inductive Paint where
  | bold
  | dimmed
  | red
  | green
  | yellow
  | cyan
  | boldRed
  | boldGreen
  deriving DecidableEq

def Paint.code : Paint → String
  | bold => "\x1b[1m"
  | dimmed => "\x1b[2m"
  | red => "\x1b[31m"
  | green => "\x1b[32m"
  | yellow => "\x1b[33m"
  | cyan => "\x1b[36m"
  | boldRed => "\x1b[1;31m"
  | boldGreen => "\x1b[1;32m"

def resetCode : String := "\x1b[0m"

/-- A text in a colour, if colours are on. -/
def Paint.apply (p : Paint) (on : Bool) (s : String) : String :=
  if on then
    let parts := (Text.pieces resetCode.toList s.toList).map String.ofList
    p.code ++ (resetCode ++ p.code).intercalate parts ++ resetCode
  else s

end SelfWiring.CommandLine
