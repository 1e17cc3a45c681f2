import SelfWiring.Cell.Delivery
import SelfWiring.Cell.Entry
import SelfWiring.Cell.Registry
import SelfWiring.Config

/-! # Engines

An engine is its settings and its cells. It cannot be assembled without a store to work on, without
cells, or without the two cells at which trees begin and end. All it does to the store goes through
the retry policy of its settings.
-/

namespace SelfWiring

structure Engine where
  config : Config
  registry : Registry

/-- What an engine is assembled from. -/
structure Assembly where
  config : Config := {}
  hasStore : Bool := true
  cells : Option (List Cell)

namespace Engine

def require (present : Bool) (part : Collaborator) : Except ConfigError Unit :=
  if present then .ok () else .error (.missingCollaborator part)

/-- Put an engine together. The settings are looked at first, then the collaborators, then the
cells. -/
def assemble (a : Assembly) : Except ConfigError Engine := do
  a.config.validate
  require a.hasStore .store
  match a.cells with
  | none => .error (.missingCollaborator .registry)
  | some cells =>
    let registry ← Registry.registerAll {} cells
    require (registry.get? Cell.inputName).isSome .inputCell
    require (registry.get? Cell.outputName).isSome .outputCell
    return { config := a.config, registry }

/-- An action as the engine runs it. -/
def retrying (e : Engine) (a : Action ε α) : Action ε α := a.withRetries e.config.retryPolicy

end Engine

end SelfWiring
