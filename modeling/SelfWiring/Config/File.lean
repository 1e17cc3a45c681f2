import SelfWiring.Config
import SelfWiring.Toml.Reader

/-! # Settings files

Settings are kept in a file with a line for each. `Config.read` fills settings that the file does
not name with their defaults and passes over names it does not know; `Config.write?` writes all
settings in a fixed order, and cannot write a number beyond the signed 64-bit range. Settings that
cannot be written leave the file as it is.
-/

namespace SelfWiring

/-- Why settings cannot be loaded or saved. -/
inductive FileError where
  /-- The text is no settings file, or a setting has a value of the wrong kind. -/
  | malformed
  /-- A number is too large for the file. -/
  | unwritable
  | config (e : ConfigError)
  deriving DecidableEq

def FileError.message : FileError → String
  | malformed => "Failed to parse cellgraph config (TOML)"
  | unwritable => "Failed to serialize config"
  | config e => e.message

namespace Config

open Toml (Entries)

/-- The text under a name. -/
def textAt (es : Entries) (name default : String) : Option String :=
  match Toml.valueAt? es name with
  | none => some default
  | some (.value (.text s)) => some s
  | some _ => none

/-- The number under a name, if one is given; it must lie below `bound`. -/
def numberAt? (es : Entries) (bound : Nat) (name : String) : Option (Option Nat) :=
  match Toml.valueAt? es name with
  | none => some none
  | some (.value (.integer n)) => if 0 ≤ n ∧ n < bound then some (some n.toNat) else none
  | some _ => none

def word64At (es : Entries) (name : String) (default : UInt64) : Option UInt64 :=
  (numberAt? es 0x10000000000000000 name).map fun n => (n.map UInt64.ofNat).getD default

def word32At (es : Entries) (name : String) (default : UInt32) : Option UInt32 :=
  (numberAt? es 0x100000000 name).map fun n => (n.map UInt32.ofNat).getD default

/-- The settings that entries stand for. -/
def ofEntries? (es : Entries) : Option Config := do
  let d : Config := {}
  let dbPath ← textAt es "db_path" d.dbPath
  let logLevel ← textAt es "log_level" d.logLevel
  let eventWorkers ← word64At es "event_workers" d.eventWorkers
  let inputWorkers ← word64At es "input_workers" d.inputWorkers
  let maxSignals ← word64At es "max_signals" d.maxSignals
  let rngSeed ← numberAt? es 0x10000000000000000 "rng_seed"
  let pollInterval ← word64At es "poll_interval_ms" d.pollInterval
  let retryMaxAttempts ← word32At es "retry_max_attempts" d.retryMaxAttempts
  let retryBaseDelay ← word64At es "retry_base_delay_ms" d.retryBaseDelay
  let retryMaxDelay ← word64At es "retry_max_delay_ms" d.retryMaxDelay
  let maxRetraversals ← word32At es "max_retraversals" d.maxRetraversals
  let eventCapacity ← word64At es "event_capacity" d.eventCapacity
  let separator ← textAt es "separator" d.separator
  return {
    dbPath, logLevel, eventWorkers, inputWorkers, maxSignals
    rngSeed := rngSeed.map UInt64.ofNat
    pollInterval, retryMaxAttempts, retryBaseDelay, retryMaxDelay, maxRetraversals, eventCapacity
    separator }

/-- The settings in the text of a file. -/
def read (text : String) : Except FileError Config :=
  match (Toml.read? text).bind ofEntries? with
  | none => .error .malformed
  | some c =>
    match c.validate with
    | .ok () => .ok c
    | .error e => .error (.config e)

/-- The settings of a file that may be missing. -/
def load : Option String → Except FileError Config
  | some text => read text
  | none => .ok {}

/-- A setting as it is written. -/
inductive Setting where
  | text (s : String)
  | number (n : Nat)

/-- All settings by name, in the order of the file. -/
def settings (c : Config) : List (String × Setting) :=
  [("db_path", .text c.dbPath), ("log_level", .text c.logLevel),
    ("event_workers", .number c.eventWorkers.toNat),
    ("input_workers", .number c.inputWorkers.toNat),
    ("max_signals", .number c.maxSignals.toNat)] ++
  (c.rngSeed.map fun n => ("rng_seed", Setting.number n.toNat)).toList ++
  [("poll_interval_ms", .number c.pollInterval.toNat),
    ("retry_max_attempts", .number c.retryMaxAttempts.toNat),
    ("retry_base_delay_ms", .number c.retryBaseDelay.toNat),
    ("retry_max_delay_ms", .number c.retryMaxDelay.toNat),
    ("max_retraversals", .number c.maxRetraversals.toNat),
    ("event_capacity", .number c.eventCapacity.toNat), ("separator", .text c.separator)]

/-- The written form of a setting. -/
def Setting.write? : Setting → Option (List Char)
  | text s => some (Toml.render s.toList)
  | number n => if n < 0x8000000000000000 then some (Nat.toDigits 10 n) else none

/-- The line of a setting. -/
def line? (entry : String × Setting) : Option (List Char) :=
  entry.2.write?.map fun v => entry.1.toList ++ [' ', '=', ' '] ++ v ++ ['\n']

/-- The text of a file with the given settings. -/
def write? (c : Config) : Option String :=
  (c.settings.mapM line?).map fun lines => String.ofList lines.flatten

def write (c : Config) : Except FileError String :=
  match c.write? with
  | some text => .ok text
  | none => .error .unwritable

/-- Save settings where a file may be present, and give the file as it is then. The text is complete
before the file is touched. -/
def save (c : Config) (present : Option String) : Except FileError Unit × Option String :=
  match c.write with
  | .ok text => (.ok (), some text)
  | .error e => (.error e, present)

end Config

end SelfWiring
