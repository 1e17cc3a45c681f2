import SelfWiring.Context
import SelfWiring.Value

/-! # Payloads and submissions

A payload is one unit of work: arguments on their way to a behaviour. A submission is a text handed
in from outside, with the session that its result belongs to.
-/

namespace SelfWiring

structure Payload where
  args : List Value
  context : Context
  destination : String
  /-- The behaviours that produced the arguments; empty for a submission. -/
  sources : List String
  deriving DecidableEq, Inhabited

def Payload.source? (p : Payload) : Option String := p.sources.head?

structure Submission where
  input : String
  /-- Send the text straight to the output cell. -/
  echo : Bool := false
  session : String
  /-- The output that the session wants to see, if it wants a particular one. -/
  expectation : Option String := none
  deriving DecidableEq, Inhabited

/-- What became of one processed payload. -/
inductive Outcome where
  | forwarded (successors : Nat)
  | terminated
  deriving DecidableEq, Inhabited

/-- The stages that an event passes through. -/
inductive Stage where
  | queued
  | activating
  | calculating
  | forwarding
  | tracked
  deriving DecidableEq, Inhabited

def Stage.name : Stage → String
  | .queued => "queued"
  | .activating => "activating"
  | .calculating => "calculating"
  | .forwarding => "forwarding"
  | .tracked => "tracked"

def Stage.all : List Stage := [.queued, .activating, .calculating, .forwarding, .tracked]

def Stage.ofName? (name : String) : Option Stage := Stage.all.find? (·.name == name)

theorem Stage.ofName?_name (s : Stage) : Stage.ofName? s.name = some s := by cases s <;> rfl

end SelfWiring
