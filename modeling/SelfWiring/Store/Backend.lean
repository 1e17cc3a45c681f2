import SelfWiring.Store.Database
import SelfWiring.Store.Memory

/-! # Backends

A store of either make: in memory, or in a database.
-/

namespace SelfWiring

inductive Backend where
  | memory (m : Memory)
  | database (d : Database)

def Backend.perform (c : StoreCall) : Backend → Except StoreError c.Answer × Backend
  | .memory m => let (answer, m) := Store.perform c m; (answer, .memory m)
  | .database d => let (answer, d) := Store.perform c d; (answer, .database d)

instance : Store Backend where
  perform := Backend.perform

end SelfWiring
