import SelfWiring.Identifier
import SelfWiring.Program
import SelfWiring.Random.Generator

/-! # Worlds

What programs act on: a store, a supply of identifiers, a random generator, the events announced so
far and a clock that moves only while someone sleeps. `World.answer` performs one effect, and
`World.run` a whole program that runs alone.
-/

namespace SelfWiring

structure World (σ : Type) where
  store : σ
  /-- How many identifiers were minted. -/
  minted : Nat := 0
  generator : Random.Generator
  /-- All events, the oldest first. -/
  events : List Event := []
  /-- Milliseconds since the beginning. -/
  now : Nat := 0

namespace World

/-- Perform one effect where nobody else runs: waiting is sleeping, a stop is never asked for, and
there are no workers. -/
def answer [Store σ] : (e : Effect) → World σ → e.Answer × World σ
  | .store c, w =>
    let (result, store) := Store.perform c w.store
    (result, { w with store })
  | .elsewhere c, w => ((), { w with store := Store.elsewhere c w.store })
  | .mint, w => (Identifier.render w.minted, { w with minted := w.minted + 1 })
  | .draw limit candidates, w =>
    let (drawn, generator) := w.generator.cells limit candidates
    (drawn, { w with generator })
  | .publish e, w => ((), { w with events := w.events ++ [e] })
  | .clock, w => (w.now, w)
  | .sleep ms, w => ((), { w with now := w.now + min ms longestWait })
  | .signal _, w => ((), w)
  | .await _ ms, w => ((), { w with now := w.now + min ms longestWait })
  | .stop _, w => ((), w)
  | .stopping, w => (false, w)
  | .join, w => ((), w)

/-- Run a program from beginning to end. -/
def run [Store σ] : Program α → World σ → α × World σ
  | .done a, w => (a, w)
  | .perform e next, w =>
    let (a, w) := w.answer e
    run (next a) w

theorem run_bind [Store σ] (p : Program α) (f : α → Program β) (w : World σ) :
    run (p.bind f) w = run (f (run p w).1) (run p w).2 := by
  induction p generalizing w with
  | done _ => rfl
  | perform e next ih => simp only [Program.bind, run, ih]

end World

end SelfWiring
