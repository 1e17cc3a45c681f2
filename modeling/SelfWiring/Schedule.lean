import SelfWiring.World

/-! # Scheduling

Several programs over one world: one in the foreground and any number of tasks in the background.
Whoever can run stands in line, and the first in line runs until it has to wait. Waking somebody
puts it at the end of the line. When the line is empty the clock moves on to the next moment at
which somebody's time is up, and all whose time is up then join the line, in the order in which they
began to wait.

A signal wakes the task that has waited longest on its queue. If none waits it is kept, at most once
for a queue, and spares the next task that would wait its wait. A stop is asked for by a token, and
wakes all waiting tasks that listen to it.
-/

namespace SelfWiring

/-- What a program that does not run waits for. -/
inductive Wake where
  /-- Its turn. -/
  | ready
  | sleeping (deadline : Nat)
  /-- A signal, a stop, or the deadline. -/
  | waiting (queue : Option String) (deadline : Nat)
  /-- The end of the last worker. -/
  | joining
  deriving DecidableEq

/-- Where a program stands. Places are given out once, so they tell programs apart, and a smaller
one was given out earlier. -/
structure Seat where
  place : Nat
  wake : Wake := .ready
  /-- The stop signal that the program listens to. -/
  token : Nat := 0

namespace Seat

def isReady (x : Seat) : Bool := x.wake == .ready

def isJoining (x : Seat) : Bool := x.wake == .joining

/-- Whether the program waits on a queue. -/
def awaits (queue : String) (x : Seat) : Bool :=
  match x.wake with
  | .waiting (some q) _ => q == queue
  | _ => false

/-- Whether a stop signal would wake the program. -/
def heeds (token : Nat) (x : Seat) : Bool :=
  match x.wake with
  | .waiting _ _ => x.token == token
  | _ => false

/-- The moment at which the program goes on by itself. -/
def deadline? (x : Seat) : Option Nat :=
  match x.wake with
  | .sleeping t => some t
  | .waiting _ t => some t
  | _ => none

end Seat

/-- A program that runs again and again until it yields something. -/
structure Job (α : Type) where
  /-- What is run when the last run has yielded nothing. -/
  again : Program (Option α)
  /-- What is left of the present run. -/
  rest : Program (Option α)

namespace Job

/-- A program run once. -/
def once (p : Program α) : Job α := let q := p.bind fun a => .done (some a); ⟨q, q⟩

/-- A program run until it yields something. -/
def repeating (p : Program (Option α)) : Job α := ⟨p, p⟩

end Job

/-- A task in the background. -/
structure Background where
  job : Job Unit
  /-- Whether others may wait for its end. -/
  isWorker : Bool
  seat : Seat

structure Schedule (σ : Type) where
  world : World σ
  /-- Where the foreground stands. -/
  seat : Seat := { place := 0 }
  background : List Background := []
  /-- The queues whose last signal woke nobody. -/
  kept : List String := []
  /-- The stop signals that were given. -/
  stopped : List Nat := []
  /-- The number of places given out. -/
  places : Nat := 1
  /-- The number of stop signals given out; nobody gives the first. -/
  tokens : Nat := 1

namespace Schedule

variable {σ : Type}

def seats (s : Schedule σ) : List Seat := s.seat :: s.background.map (·.seat)

/-- The places of the seats with some property. -/
def placesOf (p : Seat → Bool) (s : Schedule σ) : List Nat := (s.seats.filter p).map (·.place)

/-- The smallest place of a seat with some property. -/
def first? (p : Seat → Bool) (s : Schedule σ) : Option Nat := (s.placesOf p).min?

/-- Give the program at a place a new place, where it waits for something else. -/
def move (place : Nat) (wake : Wake) (s : Schedule σ) : Schedule σ :=
  let moved := fun (x : Seat) => if x.place = place then { x with place := s.places, wake } else x
  { s with
    seat := moved s.seat
    background := s.background.map fun b => { b with seat := moved b.seat }
    places := s.places + 1 }

/-- Put programs at the end of the line, in the order of their places. -/
def wakeAll (p : Seat → Bool) (s : Schedule σ) : Schedule σ :=
  ((s.placesOf p).mergeSort fun a b => a ≤ b).foldl (fun s place => s.move place .ready) s

/-- Signal a queue. -/
def signal (queue : String) (s : Schedule σ) : Schedule σ :=
  match s.first? (Seat.awaits queue) with
  | some place => s.move place .ready
  | none => { s with kept := if s.kept.contains queue then s.kept else queue :: s.kept }

/-- Ask everybody who listens to a token to stop. -/
def stop (token : Nat) (s : Schedule σ) : Schedule σ :=
  let s := s.wakeAll (Seat.heeds token)
  { s with stopped := token :: s.stopped }

def hasWorkers (s : Schedule σ) : Bool := s.background.any (·.isWorker)

/-- How a stretch of a program ended. -/
inductive Stretch (α : Type) where
  | yielded (a : α)
  | paused (wake : Wake) (rest : Program α)

/-- The moment up to which a program waits that begins to wait now. -/
def deadlineAfter (ms : Nat) (s : Schedule σ) : Nat := s.world.now + min ms longestWait

/-- Run a program that listens to a token until it ends or has to wait. -/
def stretch [Store σ] (token : Nat) : Program α → Schedule σ → Stretch α × Schedule σ
  | .done a, s => (.yielded a, s)
  | .perform (.sleep ms) next, s =>
    if ms = 0 then stretch token (next ()) s
    else (.paused (.sleeping (s.deadlineAfter ms)) (next ()), s)
  | .perform (.await queue ms) next, s =>
    if s.stopped.contains token then stretch token (next ()) s
    else match queue.filter s.kept.contains with
      | some q => stretch token (next ()) { s with kept := s.kept.erase q }
      | none => (.paused (.waiting queue (s.deadlineAfter ms)) (next ()), s)
  | .perform (.signal queue) next, s => stretch token (next ()) (s.signal queue)
  | .perform (.stop other) next, s => stretch token (next ()) (s.stop other)
  | .perform .stopping next, s => stretch token (next (s.stopped.contains token)) s
  | .perform .join next, s =>
    if s.hasWorkers then (.paused .joining (next ()), s) else stretch token (next ()) s
  | .perform e next, s =>
    let (a, world) := s.world.answer e
    stretch token (next a) { s with world }

/-- Leave the task at a place with this rest of its run. -/
def keepRest (place : Nat) (rest : Program (Option Unit)) (s : Schedule σ) : Schedule σ :=
  { s with background := s.background.map fun b =>
      if b.seat.place = place then { b with job := { b.job with rest } } else b }

/-- The task at a place has come to its end. -/
def remove (place : Nat) (s : Schedule σ) : Schedule σ :=
  let s := { s with background := s.background.filter fun b => b.seat.place != place }
  if s.hasWorkers then s else s.wakeAll Seat.isJoining

/-- Let the task at a place run for a stretch. One whose run has yielded nothing stays where it
is, and so goes on with the next run. -/
def turn [Store σ] (place : Nat) (s : Schedule σ) : Schedule σ :=
  match s.background.find? fun b => b.seat.place == place with
  | none => s
  | some b =>
    match stretch b.seat.token b.job.rest s with
    | (.yielded (some ()), s) => s.remove place
    | (.yielded none, s) => s.keepRest place b.job.again
    | (.paused wake rest, s) => (s.keepRest place rest).move place wake

/-- Move the clock on to the next deadline, and wake those whose time is up. -/
def pass (s : Schedule σ) : Schedule σ :=
  match (s.seats.filterMap Seat.deadline?).min? with
  | none => s
  | some t =>
    let s := { s with world := { s.world with now := max s.world.now t } }
    s.wakeAll fun x => x.deadline? == some t

/-- Run a foreground job to its result, and the background along with it; `fuel` bounds the number
of stretches. -/
def run [Store σ] : (fuel : Nat) → Job α → Schedule σ → Option α × Schedule σ
  | 0, _, s => (none, s)
  | fuel + 1, j, s =>
    match s.first? Seat.isReady with
    | none => run fuel j s.pass
    | some place =>
      if place = s.seat.place then
        match stretch s.seat.token j.rest s with
        | (.yielded (some a), s) => (some a, s)
        | (.yielded none, s) => run fuel { j with rest := j.again } s
        | (.paused wake rest, s) => run fuel { j with rest } (s.move s.seat.place wake)
      else run fuel j (s.turn place)

/-- A stop signal that nobody has used before. -/
def newToken (s : Schedule σ) : Nat × Schedule σ := (s.tokens, { s with tokens := s.tokens + 1 })

/-- Let the foreground listen to a stop signal. -/
def listen (token : Nat) (s : Schedule σ) : Schedule σ := { s with seat := { s.seat with token } }

/-- Add a task to the background. -/
def spawn (job : Job Unit) (isWorker : Bool) (token : Nat) (s : Schedule σ) : Schedule σ :=
  { s with
    background := s.background ++ [⟨job, isWorker, { place := s.places, token }⟩]
    places := s.places + 1 }

end Schedule

end SelfWiring
