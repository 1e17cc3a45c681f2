import SelfWiring.Program

/-! # Retries

A store call that fails for a transient reason is tried again after a delay that doubles from one
attempt to the next, up to a longest delay and a greatest number of attempts. Every other outcome
stands at once. `RetryPolicy.run` is the loop over any operation, and `Program.withRetries` puts it
around every store call of a program.
-/

namespace SelfWiring

structure RetryPolicy where
  /-- How often an operation is attempted in all; zero counts as one. -/
  maxAttempts : UInt32 := 5
  /-- The delay before the second attempt, in milliseconds. -/
  base : UInt64 := 20
  /-- The longest delay, in milliseconds. -/
  longest : UInt64 := 2000
  deriving DecidableEq

namespace RetryPolicy

/-- A product that stays at the greatest number when it would exceed it. -/
def saturatingMul (a b : UInt64) : UInt64 :=
  if a.toNat * b.toNat < 0x10000000000000000 then a * b else 0xFFFFFFFFFFFFFFFF

/-- The delay after a failed attempt, in milliseconds; attempts are counted from 1. -/
def delay (p : RetryPolicy) (attempt : UInt32) : UInt64 :=
  let doublings := min (attempt.toNat - 1) 31
  min (saturatingMul p.base (2 ^ doublings)) p.longest

/-- Attempt an operation while it fails for a transient reason and retries are `left`. -/
def loop [Monad m] (p : RetryPolicy) (op : m (Except StoreError α)) (sleep : UInt64 → m Unit) :
    (left : Nat) → (attempt : UInt32) → m (Except StoreError α)
  | 0, _ => op
  | left + 1, attempt => do
    match ← op with
    | .ok a => return .ok a
    | .error e =>
      if e.isTransient then
        sleep (p.delay attempt)
        loop p op sleep left (attempt + 1)
      else return .error e

/-- Attempt an operation as often as the policy allows. -/
def run [Monad m] (p : RetryPolicy) (op : m (Except StoreError α)) (sleep : UInt64 → m Unit) :
    m (Except StoreError α) :=
  p.loop op sleep (p.maxAttempts.toNat - 1) 1

end RetryPolicy

/-- The program whose store calls are retried. -/
def Program.withRetries (policy : RetryPolicy) : Program α → Program α
  | .done a => .done a
  | .perform (.store c) next =>
    (policy.run (Program.effect (.store c)) fun ms => Program.sleep ms.toNat).bind fun answer =>
      (next answer).withRetries policy
  | .perform e next => .perform e fun answer => (next answer).withRetries policy

theorem Program.withRetries_bind (policy : RetryPolicy) (p : Program α) (f : α → Program β) :
    (p.bind f).withRetries policy =
      (p.withRetries policy).bind fun a => (f a).withRetries policy := by
  induction p with
  | done a => rfl
  | perform e next ih =>
    by_cases hstore : ∃ c, e = .store c
    · obtain ⟨c, rfl⟩ := hstore
      refine Eq.trans ?_ (bind_assoc _ _ _).symm
      exact congrArg _ (funext ih)
    · cases e
      case store c => exact absurd ⟨c, rfl⟩ hstore
      all_goals exact congrArg _ (funext ih)

/-- The action whose store calls are retried. -/
def Action.withRetries (policy : RetryPolicy) (a : Action ε α) : Action ε α :=
  ExceptT.mk (Program.withRetries policy a.run)

end SelfWiring
