/-! # Contexts

The record that accompanies a payload through a tree of events. A fork is a copy under an identity
of its own: whatever is set on it later leaves the context it came from alone.
-/

namespace SelfWiring

structure Context where
  id : String
  behaviour : Option String := none
  cell : Option String := none
  tree : Option String := none
  session : Option String := none
  information : Option String := none
  expectation : Option String := none
  /-- How often the tree had been restarted when this walk began. -/
  pass : Int64 := 0
  deriving DecidableEq, Inhabited

/-- The parts of a context that an operation can find missing. -/
inductive Context.Part where
  | behaviour
  | cell
  | tree
  | session
  | information
  deriving DecidableEq

def Context.Part.name : Context.Part → String
  | .behaviour => "behaviour id"
  | .cell => "cell name"
  | .tree => "tree id"
  | .session => "session id"
  | .information => "information id"

/-- A copy of a context under the fresh identity `id`. -/
def Context.fork (c : Context) (id : String) : Context := { c with id }

end SelfWiring
