import SelfWiring.Error
import SelfWiring.Retry

/-! # Settings

The settings of an engine and their defaults. `Config.validate` names the first setting that an
engine cannot start with.
-/

namespace SelfWiring

structure Config where
  dbPath : String := "~/.cellgraph/graph.db"
  logLevel : String := "info"
  /-- Workers that process payloads. -/
  eventWorkers : UInt64 := 10
  /-- Workers that accept submissions. -/
  inputWorkers : UInt64 := 1
  /-- The most behaviours that an exploration makes. -/
  maxSignals : UInt64 := 5
  /-- The seed of the exploration draws. -/
  rngSeed : Option UInt64 := none
  /-- How long a worker waits before it looks at its queue again, in milliseconds. -/
  pollInterval : UInt64 := 250
  retryMaxAttempts : UInt32 := 5
  retryBaseDelay : UInt64 := 20
  retryMaxDelay : UInt64 := 2000
  /-- Restarts of a tree before it is given up; zero sets no limit. -/
  maxRetraversals : UInt32 := 0
  /-- Events kept for an observer that falls behind. -/
  eventCapacity : UInt64 := 1024
  /-- What separates the features of a text when the store names nothing else. -/
  separator : String := " "
  deriving DecidableEq

namespace Config

/-- The first setting that an engine cannot start with. -/
def fault? (c : Config) : Option Misconfiguration :=
  if c.eventWorkers = 0 then some .eventWorkers
  else if c.inputWorkers = 0 then some .inputWorkers
  else if c.pollInterval = 0 then some .pollInterval
  else if c.retryMaxDelay < c.retryBaseDelay then
    some (.retryDelays c.retryBaseDelay c.retryMaxDelay)
  else if c.eventCapacity = 0 then some .eventCapacity
  else none

def validate (c : Config) : Except ConfigError Unit :=
  match c.fault? with
  | some fault => .error (.invalid fault)
  | none => .ok ()

/-- The retry policy of the store, with at least one attempt. -/
def retryPolicy (c : Config) : RetryPolicy :=
  { maxAttempts := max c.retryMaxAttempts 1, base := c.retryBaseDelay, longest := c.retryMaxDelay }

/-- A path whose leading tilde, alone or before a slash, is replaced by the home directory. -/
def resolvePath (home path : String) : String :=
  match path.toList with
  | ['~'] => home
  | '~' :: '/' :: rest => home ++ String.ofList ('/' :: rest)
  | _ => path

/-- The path of a name in a directory. -/
def beneath (directory name : String) : String :=
  if directory.endsWith "/" then directory ++ name else directory ++ "/" ++ name

/-- The home directory of the library below a user's home directory. -/
def defaultHome (home : String) : String := beneath home ".cellgraph"

/-- The settings file of a home directory. -/
def fileIn (home : String) : String := beneath home "cellgraph.toml"

end Config

end SelfWiring
