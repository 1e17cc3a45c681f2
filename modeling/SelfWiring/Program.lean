import SelfWiring.Event
import SelfWiring.Store.Call

/-! # Programs

What the library does to the world outside its values, as data. A `Program` is a finite tree: either
it is done, or it performs one effect and goes on according to the answer. It says what is done and
in which order, and leaves open against which store, by which clock and between which steps of
other programs it runs.

`Action ε` is a program that can fail with `ε`. Failing ends it, but takes back nothing that it has
done.
-/

namespace SelfWiring

/-- One step into the world. -/
inductive Effect where
  /-- Call the store. -/
  | store (c : StoreCall)
  /-- Let another process call the store. -/
  | elsewhere (c : StoreCall)
  /-- Make an identifier that was never made before. -/
  | mint
  /-- Draw up to `limit` cells, each from among the candidates. -/
  | draw (limit : UInt64) (candidates : List String)
  /-- Announce an event. -/
  | publish (e : Event)
  /-- Read the clock, in milliseconds. -/
  | clock
  /-- Wait for some milliseconds, or for `longestWait` where that is less. -/
  | sleep (ms : Nat)
  /-- Wake one task that waits on a queue, now or when it next waits. -/
  | signal (queue : String)
  /-- Wait until a queue is signalled, a stop is asked for, or as long as a sleep would last. -/
  | await (queue : Option String) (ms : Nat)
  /-- Ask everybody who listens to a stop signal to stop. -/
  | stop (token : Nat)
  /-- Whether a stop has been asked for. -/
  | stopping
  /-- Wait until no worker is left. -/
  | join

abbrev Effect.Answer : Effect → Type
  | store c => Except StoreError c.Answer
  | elsewhere _ => Unit
  | mint => String
  | draw _ _ => List String
  | publish _ => Unit
  | clock => Nat
  | sleep _ => Unit
  | signal _ => Unit
  | await _ _ => Unit
  | stop _ => Unit
  | stopping => Bool
  | join => Unit

/-- The longest time that is waited at a stretch: thirty years of 365 days, in milliseconds. -/
def longestWait : Nat := 946080000000

inductive Program (α : Type) where
  | done (a : α)
  | perform (e : Effect) (next : e.Answer → Program α)

namespace Program

def bind : Program α → (α → Program β) → Program β
  | done a, f => f a
  | perform e next, f => perform e fun answer => (next answer).bind f

instance : Monad Program where
  pure := done
  bind := bind

theorem bind_done (p : Program α) : p.bind done = p := by
  induction p with
  | done _ => rfl
  | perform e next ih => simp only [bind, ih]

theorem bind_assoc (p : Program α) (f : α → Program β) (g : β → Program γ) :
    (p.bind f).bind g = p.bind fun a => (f a).bind g := by
  induction p with
  | done _ => rfl
  | perform e next ih => simp only [bind, ih]

instance : LawfulMonad Program :=
  LawfulMonad.mk' Program bind_done (fun _ _ => rfl) bind_assoc

/-- The program of a single effect. -/
def effect (e : Effect) : Program e.Answer := perform e done

def elsewhere (c : StoreCall) : Program Unit := effect (.elsewhere c)
def mint : Program String := effect .mint
def draw (limit : UInt64) (candidates : List String) : Program (List String) :=
  effect (.draw limit candidates)
def publish (e : Event) : Program Unit := effect (.publish e)
def clock : Program Nat := effect .clock
def sleep (ms : Nat) : Program Unit := effect (.sleep ms)
def signal (queue : String) : Program Unit := effect (.signal queue)
def await (queue : Option String) (ms : Nat) : Program Unit := effect (.await queue ms)
def stop (token : Nat) : Program Unit := effect (.stop token)
def stopping : Program Bool := effect .stopping
def join : Program Unit := effect .join

end Program

/-- A program that can fail. -/
abbrev Action (ε : Type) := ExceptT ε Program

namespace Action

/-- Call the store. -/
def call (c : StoreCall) : Action StoreError c.Answer := ExceptT.mk (.effect (.store c))

/-- Run an action to its end and look at its result, good or bad. -/
def observe (a : Action ε α) : Action ε' (Except ε α) := ExceptT.lift a.run

/-- An action that may find nothing stored. -/
def orAbsent (a : Action StoreError α) : Action StoreError (Option α) := do
  match ← observe a with
  | .ok value => return some value
  | .error e => if e.isNotFound then return none else throw e

/-- A failure of the store inside a cell is a failure of the cell. -/
instance (priority := low) : MonadLift (Action StoreError) (Action CellError) :=
  ⟨ExceptT.adapt .store⟩

/-- A failure of the store inside the engine is a failure of the engine. -/
instance (priority := low) : MonadLift (Action StoreError) (Action EngineError) :=
  ⟨ExceptT.adapt .store⟩

/-- A failure of a cell as a failure of the engine that runs it. -/
def ofCell (a : Action CellError α) : Action EngineError α := ExceptT.adapt .cell a

end Action

end SelfWiring
