import SelfWiring.Bus
import SelfWiring.Cell.Standard
import SelfWiring.CommandLine.Help
import SelfWiring.CommandLine.Paint
import SelfWiring.Config.File
import SelfWiring.Engine.Pools
import SelfWiring.Store.Location
import SelfWiring.Store.Memory
import SelfWiring.Text.Space

/-! # Commands

What each command does and prints. A command works on what surrounds it: the settings, what stands
at the path of the database, and for `run` the lines of its input. It leaves a report behind: the
lines it printed, whether it succeeded, and the files it has changed.
-/

namespace SelfWiring.CommandLine

structure Surroundings where
  /-- The path of the settings file. -/
  configPath : String
  /-- Whether there is a settings file. -/
  hasConfig : Bool
  config : Config
  /-- The name of the database. -/
  dbPath : String
  /-- What stands where the database is kept. -/
  site : Database.Site
  /-- The lines of the input. -/
  input : List String := []
  /-- The present date and time as it is shown. -/
  time : String := ""
  painted : Bool := false
  /-- Where the supply of identifiers begins. -/
  minted : Nat := 0
  /-- The seed of the exploration draws when the settings name none. -/
  seed : UInt64 := 0
  /-- The reading of the clock in milliseconds. -/
  now : Nat := 0

structure Report where
  /-- Why the command has failed, if it has. -/
  failure : Option String := none
  lines : List String := []
  /-- The database as it was left and the path of its file, if it was opened and is kept. -/
  database : Option (String × Database) := none
  /-- The text of a settings file that was written. -/
  config : Option String := none

/-- What the program ends with: zero for success. -/
def Report.code (r : Report) : UInt32 := if r.failure.isSome then 1 else 0

/-- The lines of a text, each without its line ending. -/
def linesOf (text : String) : List String :=
  let lines := if text.endsWith "\n" then (text.splitOn "\n").dropLast
    else if text.isEmpty then [] else text.splitOn "\n"
  lines.map fun l => if l.endsWith "\x0d" then (l.dropEnd 1).toString else l

variable (s : Surroundings)

def paint (p : Paint) (text : String) : String := p.apply s.painted text

def arrow : String := paint s .boldGreen ">>>"

def farewell : String := paint s .boldRed "<<<" ++ " Shutting down gracefully..."

/-- A world around a store. -/
def worldOf (store : σ) : World σ :=
  { store, minted := s.minted, generator := .ofSeed (s.config.rngSeed.getD s.seed), now := s.now }

/-- The engine of the settings with the standard cells. -/
def engine : Except ConfigError Engine :=
  Engine.assemble { config := s.config, cells := some (Cell.standard s.config) }

/-- Run an action on a database. -/
def runOn (a : Action ε α) (d : Database) : Except ε α × Database :=
  let (result, w) := World.run a.run (worldOf s d)
  (result, w.store)

/-! ### Status -/

/-- The number of entries in a queue, greener the fewer. -/
def depth (n : Nat) : String :=
  paint s (if n = 0 then .green else if n < 100 then .yellow else .red) (toString n)

structure Census where
  inputs : Nat
  events : Nat
  connectionSets : Nat
  behaviours : Nat
  trees : Nat
  information : Nat

/-- Count what is queued and what has been learned. -/
def census : Action StoreError Census := do
  let inputs ← Queue.len Key.inputQueue.render
  let events ← Queue.len Key.eventQueue.render
  let connectionSets ← Action.call (.countKeys (Key.connections "*").render)
  let behaviours ← Action.call (.countKeys (Key.binding "*").render)
  let trees ← Action.call (.countKeys (Key.firstBehaviour "*").render)
  let information ← Action.call (.countKeys (Key.information "*").render)
  return { inputs, events, connectionSets, behaviours, trees, information }

def statusLines (c : Census) : List String :=
  ["", paint s .bold "=== Cellgraph Status ===", "",
    "  " ++ paint s .bold "Store" ++ ":  " ++ s.dbPath,
    "  " ++ paint s .bold "Queues" ++ ":",
    "    Inputs:    " ++ depth s c.inputs,
    "    Events:    " ++ depth s c.events, "",
    "  " ++ paint s .bold "Graph" ++ ":",
    s!"    Behaviours:      {c.behaviours}",
    s!"    Connection sets: {c.connectionSets}",
    s!"    Trees:           {c.trees}",
    s!"    Information:     {c.information}", "",
    "  Checked at " ++ s.time]

/-! ### Inspect -/

/-- What is shown of a behaviour. -/
structure View where
  behaviour : String
  cell : String
  /-- The following behaviours with their cells, if the behaviour was explored. -/
  successors : Option (List (String × String))

def unbound : String := "(unbound)"

/-- The following behaviours with their cells. -/
def bound : List String → Action StoreError (List (String × String))
  | [] => return []
  | id :: rest => do
    let cell ← Action.observe (Graph.binding id)
    return (id, cell.toOption.getD unbound) :: (← bound rest)

def view (behaviour : String) : Action StoreError View := do
  let cell ← Action.orAbsent (Graph.binding behaviour)
  match ← Graph.connections behaviour with
  | none => return { behaviour, cell := cell.getD unbound, successors := none }
  | some ids => return { behaviour, cell := cell.getD unbound, successors := some (← bound ids) }

/-- Why there is no view. -/
inductive InspectError where
  | store (e : StoreError)
  /-- A key matches the pattern of the connection keys and is none of them. -/
  | unexpectedKey (key : String)
  deriving DecidableEq

def InspectError.message : InspectError → String
  | store e => e.message
  | unexpectedKey key => "Unexpected connection key: " ++ key

instance (priority := low) : MonadLift (Action StoreError) (Action InspectError) :=
  ⟨ExceptT.adapt .store⟩

/-- Some behaviour that was explored. -/
def anyBehaviour : Action InspectError (Option String) := do
  match ← Action.orAbsent (Action.call (.randomKey (Key.connections "*").render)) with
  | none => return none
  | some key =>
    match Key.behaviour? key with
    | some id => return some id
    | none => throw (.unexpectedKey key)

def lookAt (behaviour : Option String) : Action InspectError (Option View) := do
  let chosen ← match behaviour with
    | some id => pure (some id)
    | none => anyBehaviour
  match chosen with
  | some id => return some (← view id)
  | none => return none

def viewLines (v : View) : List String :=
  let successors := match v.successors with
    | none => ["  " ++ paint s .dimmed "not explored yet"]
    | some [] => ["  " ++ paint s .yellow "dead end"]
    | some l => ("  " ++ paint s .bold "Successors" ++ ":") ::
        l.map fun (id, cell) => "    " ++ id ++ " -> " ++ cell
  ["", "  " ++ paint s .bold "Behaviour" ++ ": " ++ v.behaviour,
    "  " ++ paint s .bold "Cell" ++ ":      " ++ paint s .cyan v.cell] ++ successors ++ [""]

def inspectLines : Option View → List String
  | some v => viewLines s v
  | none => ["Nothing learned yet."]

/-! ### Run -/

/-- What a run says at its beginning. -/
def greeting (e : Engine) (inMemory : Bool) : List String :=
  (arrow s ++ s!" Starting cellgraph ({e.registry.cells.length} cells, " ++
    s!"{e.config.eventWorkers.toNat} event workers" ++
    (if inMemory then ", in-memory" else "") ++ ")") ::
  e.registry.cells.map fun c =>
    "    " ++ paint s .cyan (padTo 16 c.name) ++ " " ++ c.signature.render

/-- The line of an event; most events have none. -/
def eventLine : Event → Option String
  | .emitted session _ output =>
    some (paint s .boldGreen "=>" ++ " [" ++ paint s .cyan session ++ "] " ++ output)
  | .expectationNotMet tree attempt =>
    some (paint s .yellow "~" ++ " tree " ++ tree ++ " retraversing (attempt " ++
      countText attempt ++ ")")
  | .budgetExhausted tree attempts =>
    some (paint s .boldRed "x" ++ " tree " ++ tree ++ " gave up after " ++ countText attempts ++
      " attempts")
  | _ => none

/-- The submission on a line of input. Blank lines and malformed ones hold none. -/
def submissionIn (line : String) : Option Submission :=
  if (Text.trim line.toList).isEmpty then none else Submission.decode? line

/-- Queue submissions one after the other. -/
def submitAll : List Submission → Action StoreError Unit
  | [] => return ()
  | x :: rest => do
    Engine.submit x
    submitAll rest

/-- Whether a queue is known to be empty. -/
def isEmpty (e : Engine) (queue : Key) : Program Bool := do
  match ← (e.retrying (Queue.len queue.render)).run with
  | .ok n => return n == 0
  | .error _ => return false

/-- Wait for a while, and look whether both queues are empty. -/
def quietAfter (e : Engine) : Program Bool := do
  Program.sleep e.config.pollInterval.toNat
  let inputs ← isEmpty e .inputQueue
  let events ← isEmpty e .eventQueue
  return inputs && events

/-- Yields once both queues were empty twice in a row. -/
def quietTwice (e : Engine) : Program (Option Unit) := do
  if ← quietAfter e then
    if ← quietAfter e then return some ()
    else return none
  else return none

/-- Feed the submissions of the input to a running engine, wait until nothing is left to do, and
stop it. -/
def serve [Store σ] (e : Engine) (store : σ) : Option String × List Event × σ :=
  let submissions := s.input.filterMap submissionIn
  let (token, start) := e.start { world := worldOf s store }
  let (fed, schedule) :=
    start.run Engine.patience (.once (e.retrying (submitAll submissions)).run)
  match fed with
  | some (.ok ()) =>
    let (_, schedule) := schedule.run Engine.patience (.repeating (quietTwice e))
    let schedule := Engine.shutDown token schedule
    (none, schedule.world.events, schedule.world.store)
  | some (.error failure) => (some failure.message, schedule.world.events, schedule.world.store)
  | none => (some "the input was not taken", schedule.world.events, schedule.world.store)

/-- The report of a run. -/
def runReport [Store σ] (e : Engine) (inMemory : Bool) (store : σ)
    (keep : σ → Option (String × Database)) : Report :=
  let (failure, events, store) := serve s e store
  let lines := greeting s e inMemory ++ events.filterMap (eventLine s) ++
    if failure.isNone then [farewell s] else []
  { failure, lines, database := keep store }

/-! ### All commands -/

/-- Open the database and go on with it, and with what is kept of it in the end. -/
def withDatabase (next : Database → (Database → Option (String × Database)) → Report) : Report :=
  match (Location.ofName s.dbPath).bind fun l => (l.openAt s.site).map fun d => (l, d) with
  | .ok (l, d) => next d fun d => l.keptAt?.map (·, d)
  | .error e =>
    { failure := some ("Failed to open database at " ++ s.dbPath ++ ": " ++ e.message) }

/-- Open the database, run an action on it, and print its result. -/
def answering (message : ε → String) (a : Action ε α) (lines : α → List String) : Report :=
  withDatabase s fun d keep =>
    match runOn s a d with
    | (.ok x, d) => { lines := lines x, database := keep d }
    | (.error e, d) => { failure := some (message e), database := keep d }

def queuedLine (x : Submission) : String :=
  arrow s ++ " Queued " ++ Text.quoted x.input ++ " for session " ++ paint s .cyan x.session

def initReport : Report :=
  if s.hasConfig then { lines := ["Config already exists at " ++ s.configPath] }
  else match Config.save {} none with
    | (.ok (), file) => { lines := [arrow s ++ " Wrote " ++ s.configPath], config := file }
    | (.error e, _) => { failure := some e.message }

def execute (c : Command) : Report :=
  match c, engine s with
  | .init, _ => initReport s
  | .status, _ => answering s StoreError.message census (statusLines s)
  | .run true, .ok e => runReport s e true ({} : Memory) fun _ => none
  | .run false, .ok e => withDatabase s fun d keep => runReport s e false d keep
  | .submit x, .ok e =>
    answering s StoreError.message (e.retrying (Engine.submit x)) fun () => [queuedLine s x]
  | .inspect behaviour, .ok e =>
    answering s InspectError.message (e.retrying (lookAt behaviour)) (inspectLines s)
  | _, .error e => { failure := some e.message }

end SelfWiring.CommandLine
