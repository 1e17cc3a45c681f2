import SelfWiring.Engine.Process
import SelfWiring.Schedule

/-! # Worker pools

The input pool accepts the submissions of the input queue, and the event pool processes the payloads
of the event queue. A worker goes on until a stop is asked for: it finishes what it is doing and
takes nothing more. A payload that fails is given up, and its failure is announced.
-/

namespace SelfWiring.Engine

/-- Announce a failure. -/
def announce (p : Payload) : EngineError → Program Unit
  | .cell (.expectationNotMet tree attempt) =>
    Program.publish (.expectationNotMet tree attempt)
  | .cell (.budgetExhausted tree attempts) => Program.publish (.budgetExhausted tree attempts)
  | e => Program.publish (.dropped p.destination (p.context.cell.getD "?") e.message)

/-- Process a payload and announce its failure, if it fails. -/
def handle (e : Engine) (p : Payload) : Program Unit := do
  match ← (e.retrying (e.process p)).run with
  | .ok _ => return ()
  | .error failure => announce p failure

/-- One round of a worker on a queue: look at it, and do something with what is there. A queue that
cannot be read is left alone for a while. -/
def round (e : Engine) (queue : Key) (read? : String → Option α) (work : α → Program Unit) :
    Program (Option Unit) := do
  let interval := e.config.pollInterval.toNat
  match ← Queue.look queue.render read? interval e.retrying with
  | .stopped => return some ()
  | .waited => return none
  | .failed _ =>
    Program.await none interval
    return none
  | .item a =>
    work a
    return none

def inputRound (e : Engine) : Program (Option Unit) :=
  e.round .inputQueue Submission.decode? fun s => do
    let _ ← (e.retrying (accept s)).run
    return ()

def eventRound (e : Engine) : Program (Option Unit) :=
  e.round .eventQueue Payload.decode? e.handle

/-- What the workers of both pools do. -/
def workers (e : Engine) : List (Job Unit) :=
  List.replicate e.config.inputWorkers.toNat (.repeating e.inputRound) ++
    List.replicate e.config.eventWorkers.toNat (.repeating e.eventRound)

/-- Start the pools. They stop at the stop signal that is returned. -/
def start (e : Engine) (s : Schedule σ) : Nat × Schedule σ :=
  let (token, s) := s.newToken
  (token, e.workers.foldl (fun s job => s.spawn job true token) s)

/-- More stretches than any run is expected to take. -/
def patience : Nat := 0x4000000000000000

/-- Let the pools work for up to `windows` stretches of time, until a stretch ends with the store
`idle`. -/
def watch [Store σ] (idle : σ → Bool) (window : Nat) :
    (windows : Nat) → Schedule σ → Bool × Schedule σ
  | 0, s => (false, s)
  | n + 1, s =>
    let (_, s) := s.run patience (.once (Program.sleep window))
    if idle s.world.store then (true, s) else watch idle window n s

/-- Stop workers, and wait until they have finished what they are doing. -/
def shutDown [Store σ] (token : Nat) (s : Schedule σ) : Schedule σ :=
  (s.run patience (.once do
    Program.stop token
    Program.join)).2

/-- Start the pools, wait until the store is idle, and stop them. -/
def runUntilIdle [Store σ] (e : Engine) (idle : σ → Bool) (windows window : Nat)
    (s : Schedule σ) : Bool × Schedule σ :=
  let (token, s) := e.start s
  let (calm, s) := watch idle window windows s
  (calm, shutDown token s)

end SelfWiring.Engine
