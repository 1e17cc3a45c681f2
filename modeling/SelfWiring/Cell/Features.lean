import SelfWiring.Cell.Entry
import SelfWiring.Text.Pieces
import SelfWiring.Text.Space

/-! # Splitting features

A text of two integers around a separator becomes the two integers. Blanks around a feature do not
count, and features that are blank are left out.
-/

namespace SelfWiring.Cell

/-- The features of a text, trimmed and none of them empty. -/
def features (separator text : List Char) : List (List Char) :=
  ((Text.pieces separator text).map Text.trim).filter (!·.isEmpty)

def readFeature (feature : List Char) : Except Objection Value :=
  match Text.Integer.read feature with
  | .ok n => .ok (.int n)
  | .error fault => .error (.notInteger (String.ofList feature) fault)

/-- The two integers of a text. -/
def splitText (separator text : String) : Except Objection (List Value) :=
  match features separator.toList text.toList with
  | [a, b] => do
    let x ← readFeature a
    let y ← readFeature b
    return [x, y]
  | others => .error (.featureCount separator others.length)

/-- The separator that the store names, or the default where it names none or an empty one. -/
def storedSeparator (default : String) : Action StoreError String := do
  match ← Action.orAbsent (Action.call (.get Key.separator.render)) with
  | some s => return if s = "" then default else s
  | none => return default

def splitFeaturesName : String := "split-features"

def splitFeatures (default : String) : Cell where
  name := splitFeaturesName
  signature := ⟨[.text], [.int, .int], true⟩
  metadata := [("separator", default)]
  call _ args := do
    let text ← textOf splitFeaturesName args
    let separator ← storedSeparator default
    match splitText separator text with
    | .ok values => return values
    | .error objection => throw (.domain splitFeaturesName objection)

end SelfWiring.Cell
