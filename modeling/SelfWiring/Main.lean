import SelfWiring.CommandLine.Execute
import SelfWiring.Store.Archive
import Std.Time.Format
import Std.Time.Zoned

/-! # The program

The outer layer of the command line: it collects what a command needs from the surroundings, lets
the command run, prints its lines and writes the files that it has changed. It decides nothing.
-/

namespace SelfWiring.CommandLine

/-- The text of a file, or nothing where there is no file. -/
def textOf (path : String) : IO (Option String) := do
  match ← (IO.FS.readFile path).toBaseIO with
  | .ok text => return some text
  | .error (.noFileOrDirectory ..) => return none
  | .error e => throw e

/-- What stands where a database of some name is kept. -/
def siteOf (name : String) : IO Database.Site := do
  match Location.ofName name with
  | .error _ => return .vacant true
  | .ok l =>
    let path := Location.tidy l.path
    match ← (IO.FS.readBinFile path).toBaseIO with
    | .ok bytes => return ((String.fromUTF8? bytes).map .ofText).getD .foreign
    | .error (.noFileOrDirectory ..) =>
      let directory := Location.directoryOf path
      match ← (IO.FS.realPath (if directory.isEmpty then "." else directory)).toBaseIO with
      | .ok _ => return .vacant true
      | .error _ => return .vacant false
    | .error _ => return .directory path

/-- Write a file and the directories above it. -/
def save (path text : String) : IO Unit := do
  let directory := Location.directoryOf path
  unless directory.isEmpty do IO.FS.createDirAll directory
  IO.FS.writeFile path text

/-- Whether colours are on: they can be forced or refused, and are otherwise on at a terminal. -/
def isPainted : IO Bool := do
  let isOn := fun (v : Option String) => v.any (· != "0")
  if isOn (← IO.getEnv "CLICOLOR_FORCE") then return true
  if (← IO.getEnv "NO_COLOR").isSome then return false
  if (← IO.getEnv "CLICOLOR") == some "0" then return false
  (← IO.getStdout).isTty

/-- The present date and time. -/
def presentTime : IO String := do
  let now ← try Std.Time.PlainDateTime.now
    catch _ => return "-"
  return now.format "yyyy-MM-dd HH:mm:ss"

/-- A random number of some bytes. -/
def randomNumber (bytes : USize) : IO Nat := do
  return (← IO.getRandomBytes bytes).toList.foldl (fun n b => n * 256 + b.toNat) 0

/-- The reading of the clock in milliseconds. -/
def clock : IO Nat := do
  return (← Std.Time.Timestamp.now).toMillisecondsSinceUnixEpoch.val.toNat

/-- Carry out a command. -/
def carryOut (i : Invocation) : IO UInt32 := do
  let home := (← IO.getEnv "HOME").getD "~"
  let configPath := Config.fileIn (Config.resolvePath home i.home)
  let settings ← textOf configPath
  match Config.load settings with
  | .error e =>
    IO.eprintln ("Error: Failed to load config from " ++ configPath ++ ": " ++ e.message)
    return 1
  | .ok config =>
    let dbPath := Config.resolvePath home config.dbPath
    let input ← match i.command with
      | .run _ => (← IO.getStdin).readToEnd
      | _ => pure ""
    let now ← clock
    let report := execute
      { configPath, hasConfig := settings.isSome, config, dbPath, site := ← siteOf dbPath
        input := linesOf input, time := ← presentTime, painted := ← isPainted
        minted := now * 0x100000000000000000000 + (← randomNumber 10)
        seed := UInt64.ofNat (← randomNumber 8), now }
      i.command
    if let some text := report.config then save configPath text
    if let some (path, d) := report.database then save path d.archive
    for line in report.lines do IO.println line
    if let some failure := report.failure then IO.eprintln ("Error: " ++ failure)
    return report.code

/-- Answer a command line. -/
def respond (arguments : List String) : IO UInt32 := do
  match read arguments with
  | .refused =>
    IO.eprintln "error: these arguments cannot be understood\n\nFor more information, try '--help'."
    return 2
  | .help topic =>
    for line in topic.lines do IO.println line
    return 0
  | .version =>
    IO.println versionText
    return 0
  | .invocation i =>
    try carryOut i
    catch e =>
      IO.eprintln ("Error: " ++ toString e)
      return 1

end SelfWiring.CommandLine

def main (arguments : List String) : IO UInt32 := SelfWiring.CommandLine.respond arguments
