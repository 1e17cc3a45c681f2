import SelfWiring.Cell.Arithmetic
import SelfWiring.Cell.Delivery
import SelfWiring.Cell.Features
import SelfWiring.Cell.Registry
import SelfWiring.Config

/-! # The standard cells

The cells of an engine as its settings ask for them. Their names are pairwise different, so they
always make a registry.
-/

namespace SelfWiring.Cell

def standard (c : Config) : List Cell :=
  [input, splitFeatures c.separator] ++ arithmetic ++ [output c.maxRetraversals]

end SelfWiring.Cell
