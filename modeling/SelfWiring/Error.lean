import SelfWiring.Context
import SelfWiring.Signature
import SelfWiring.Text.Quoted

/-! # Errors

One inductive type for the failures of each layer: the store, a cell, the configuration and the
engine. A constructor is a cause; `message` gives its wording. A failure of a lower layer passes
through a higher one with its wording unchanged.
-/

namespace SelfWiring

inductive StoreError where
  /-- Nothing is stored under the key. -/
  | notFound (key : String)
  /-- The backend was busy; the same call may succeed later. -/
  | transient (reason : String)
  | backend (reason : String)
  /-- A stored text is not the written form of what it should hold. -/
  | codec (reason : String)
  deriving DecidableEq

namespace StoreError

def message : StoreError → String
  | notFound key => "not found: " ++ key
  | transient reason => "transient storage failure: " ++ reason
  | backend reason => "storage backend failure: " ++ reason
  | codec reason => "codec error: " ++ reason

def isNotFound : StoreError → Bool
  | notFound _ => true
  | _ => false

def isTransient : StoreError → Bool
  | transient _ => true
  | _ => false

end StoreError

/-- What a cell can object to in its arguments. -/
inductive Objection where
  | notText
  | notTwoIntegers
  | overflow
  | divisionByZero
  | featureCount (separator : String) (actual : Nat)
  | notInteger (feature : String) (fault : Text.Integer.Fault)
  | nothingToOutput
  /-- An objection in the words of a cell from outside this library. -/
  | stated (words : String)
  deriving DecidableEq

def Objection.message : Objection → String
  | notText => "expected text"
  | notTwoIntegers => "expected two integers"
  | overflow => "integer overflow"
  | divisionByZero => "division by zero"
  | featureCount separator actual =>
    "expected two features separated by " ++ Text.quoted separator ++ s!", got {actual}"
  | notInteger feature fault => "'" ++ feature ++ "' is not an integer: " ++ fault.message
  | nothingToOutput => "nothing to output"
  | stated words => words

inductive CellError where
  | domain (cell : String) (objection : Objection)
  | arity (cell : String) (declared produced : Nat)
  | expectationNotMet (tree : String) (attempt : Int64)
  | budgetExhausted (tree : String) (attempts : Int64)
  | missingContext (part : Context.Part)
  | store (e : StoreError)
  deriving DecidableEq

def CellError.message : CellError → String
  | domain cell objection => cell ++ ": " ++ objection.message
  | arity cell declared produced =>
    cell ++ s!" declared {declared} outputs but produced {produced}"
  | expectationNotMet tree attempt =>
    "expectation not met for tree " ++ tree ++ " (attempt " ++
      String.ofList (Text.Integer.render attempt.toInt) ++ ")"
  | budgetExhausted tree attempts =>
    "retraversal budget exhausted for tree " ++ tree ++ " after " ++
      String.ofList (Text.Integer.render attempts.toInt) ++ " attempts"
  | missingContext part => "context is missing " ++ part.name
  | store e => e.message

/-- The parts that an engine cannot be assembled without. -/
inductive Collaborator where
  | store
  | registry
  | inputCell
  | outputCell
  deriving DecidableEq

def Collaborator.name : Collaborator → String
  | store => "store"
  | registry => "cell registry"
  | inputCell => "input cell"
  | outputCell => "output cell"

/-- A setting that an engine cannot start with. -/
inductive Misconfiguration where
  | eventWorkers
  | inputWorkers
  | pollInterval
  | retryDelays (base max : UInt64)
  | eventCapacity
  | duplicateCell (name : String)
  deriving DecidableEq

def Misconfiguration.message : Misconfiguration → String
  | eventWorkers => "event_workers must be at least 1"
  | inputWorkers => "input_workers must be at least 1"
  | pollInterval => "poll_interval_ms must be positive"
  | retryDelays base max =>
    s!"retry_base_delay_ms ({base.toNat}) exceeds retry_max_delay_ms ({max.toNat})"
  | eventCapacity => "event_capacity must be positive"
  | duplicateCell name => "cell '" ++ name ++ "' registered twice"

inductive ConfigError where
  | missingCollaborator (part : Collaborator)
  | invalid (fault : Misconfiguration)
  deriving DecidableEq

def ConfigError.message : ConfigError → String
  | missingCollaborator part => "missing required collaborator: " ++ part.name
  | invalid fault => "invalid configuration: " ++ fault.message

inductive EngineError where
  | store (e : StoreError)
  | cell (e : CellError)
  | unknownCell (name : String)
  | notActivated (cell : String) (reason : Mismatch)
  | missingContext (part : Context.Part)
  deriving DecidableEq

def EngineError.message : EngineError → String
  | store e => e.message
  | cell e => e.message
  | unknownCell name => "no cell registered under '" ++ name ++ "'"
  | notActivated name reason => name ++ " not activated: " ++ reason.message
  | missingContext part => "payload context is missing " ++ part.name

end SelfWiring
