/-! # Events

What the engine announces while it runs. Events are announced in the order in which they happen and
are never taken back.
-/

namespace SelfWiring

inductive Event where
  /-- A submission became the first payload of a new tree. -/
  | accepted (session tree : String)
  /-- A result was delivered to its session. -/
  | emitted (session tree output : String)
  /-- A result missed its expectation and the tree was restarted. -/
  | expectationNotMet (tree : String) (attempt : Int64)
  /-- A result missed its expectation and no restart is left. -/
  | budgetExhausted (tree : String) (attempts : Int64)
  /-- A behaviour has nothing to forward to. -/
  | deadEnd (behaviour : String)
  /-- A payload failed and was given up. -/
  | dropped (behaviour cell reason : String)
  deriving DecidableEq

end SelfWiring
