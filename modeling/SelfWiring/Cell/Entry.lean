import SelfWiring.Cell.Basic
import SelfWiring.Graph

/-! # The input cell

Where submissions enter the graph: a text is recorded as information and passed on as it is.
-/

namespace SelfWiring.Cell

/-- The text that an argument list begins with. -/
def textOf (name : String) (args : List Value) : Except CellError String :=
  match args.head?.bind Value.asText? with
  | some text => .ok text
  | none => .error (.domain name .notText)

def inputName : String := "input"

def input : Cell where
  name := inputName
  signature := ⟨[.text], [.text], false⟩
  entry := true
  call _ args := do
    let text ← textOf inputName args
    let _ ← Graph.informationIdFor text
    return args

end SelfWiring.Cell
