import SelfWiring.Payload

/-! # Arguments

What a command line asks for. Options come in any order, each at most once; a value follows its
option as the next argument or behind an equals sign. The options of the program stand before the
name of the command, those of the command behind it. After `--` every argument is a plain one.

A request for help or for the version is answered as soon as it is met, and the first argument that
cannot be understood ends the reading.
-/

namespace SelfWiring.CommandLine

inductive Command where
  | run (inMemory : Bool)
  | submit (s : Submission)
  | status
  | inspect (behaviour : Option String)
  | init
  deriving DecidableEq

/-- What help can be asked about. -/
inductive Topic where
  | program
  | run
  | submit
  | status
  | inspect
  | init
  | help
  deriving DecidableEq

namespace Topic

def name : Topic → String
  | program => "cellgraph"
  | run => "run"
  | submit => "submit"
  | status => "status"
  | inspect => "inspect"
  | init => "init"
  | help => "help"

/-- The commands, in the order in which they are listed. -/
def commands : List Topic := [run, submit, status, inspect, init, help]

def ofName? (name : String) : Option Topic := commands.find? (·.name == name)

end Topic

structure Invocation where
  /-- The directory that holds the settings file. -/
  home : String
  logLevel : Option String
  command : Command
  deriving DecidableEq

/-- What reading the arguments comes to. -/
inductive Reading where
  | invocation (i : Invocation)
  | help (t : Topic)
  | version
  /-- The arguments cannot be understood. -/
  | refused
  deriving DecidableEq

/-- An option of a level: its name, and whether a value follows it. -/
structure Flag where
  name : String
  takesValue : Bool

/-- The arguments of one level: the options given, by name, and the plain arguments. -/
structure Given where
  options : List (String × String) := []
  plain : List String := []

/-- How the reading of one level ends. -/
inductive Level where
  | complete (g : Given)
  /-- A plain argument names a command; the rest belongs to the command. -/
  | command (g : Given) (t : Topic) (rest : List String)
  | help
  | version
  | refused

/-- What an argument can be by its shape. -/
inductive Shape where
  | plain
  /-- Two dashes alone. -/
  | terminator
  | long (name : String) (value : Option String)
  | short (letters : List Char)

def shape (argument : String) : Shape :=
  match argument.toList with
  | ['-', '-'] => .terminator
  | '-' :: '-' :: cs =>
    let name := String.ofList (cs.takeWhile (· != '='))
    match cs.dropWhile (· != '=') with
    | [] => .long name none
    | _ :: value => .long name (some (String.ofList value))
  | ['-'] => .plain
  | '-' :: cs => .short cs
  | _ => .plain

/-- What a level admits. -/
structure Grammar where
  options : List Flag
  /-- How many plain arguments there may be. -/
  plain : Nat := 0
  /-- Whether commands are looked for. -/
  hasCommands : Bool := false

/-- Note an option, unless it was given before. -/
def note (g : Given) (name value : String) : Option Given :=
  if g.options.any (·.1 == name) then none
  else some { g with options := g.options ++ [(name, value)] }

/-- The reading of one-letter options: only those for help and for the version exist. -/
def readShort (grammar : Grammar) : List Char → Level
  | 'h' :: _ => .help
  | 'V' :: _ => if grammar.hasCommands then .version else .refused
  | _ => .refused

/-- The plain arguments that remain after a terminator. -/
def readPlain (grammar : Grammar) (g : Given) (arguments : List String) : Level :=
  if g.plain.length + arguments.length ≤ grammar.plain then
    .complete { g with plain := g.plain ++ arguments }
  else .refused

/-- Read the arguments of one level. -/
def readLevel (grammar : Grammar) : Given → List String → Level
  | g, [] => .complete g
  | g, argument :: rest =>
    match shape argument with
    | .terminator => readPlain grammar g rest
    | .short letters => readShort grammar letters
    | .plain =>
      match if grammar.hasCommands then Topic.ofName? argument else none with
      | some t => .command g t rest
      | none =>
        if g.plain.length < grammar.plain then
          readLevel grammar { g with plain := g.plain ++ [argument] } rest
        else .refused
    | .long "help" none => .help
    | .long "version" none => if grammar.hasCommands then .version else .refused
    | .long name value =>
      match grammar.options.find? (·.name == name) with
      | none => .refused
      | some o =>
        match o.takesValue, value, rest with
        | false, none, rest => (note g name "").elim .refused (readLevel grammar · rest)
        | false, some _, _ => .refused
        | true, some v, rest => (note g name v).elim .refused (readLevel grammar · rest)
        | true, none, [] => .refused
        | true, none, v :: rest =>
          match shape v with
          | .plain => (note g name v).elim .refused (readLevel grammar · rest)
          | _ => .refused

def programGrammar : Grammar where
  options := [⟨"home", true⟩, ⟨"log-level", true⟩]
  hasCommands := true

def grammar : Topic → Grammar
  | .run => { options := [⟨"memory", false⟩] }
  | .submit =>
    { options := [⟨"input", true⟩, ⟨"session", true⟩, ⟨"expectation", true⟩, ⟨"echo", false⟩] }
  | .inspect => { options := [], plain := 1 }
  | _ => { options := [] }

/-- The command of a topic with what was given to it; some options are required. -/
def Topic.command? (t : Topic) (g : Given) : Option Command :=
  match t with
  | .run => some (.run (g.options.lookup "memory").isSome)
  | .submit =>
    match g.options.lookup "input", g.options.lookup "session" with
    | some input, some session =>
      some (.submit
        { input, session
          expectation := g.options.lookup "expectation"
          echo := (g.options.lookup "echo").isSome })
    | _, _ => none
  | .status => some .status
  | .inspect => some (.inspect g.plain.head?)
  | .init => some .init
  | _ => none

/-- What `help` shows for the commands named behind it. -/
def readHelp : List String → Reading
  | [] => .help .program
  | [name] => ((Topic.ofName? name).map .help).getD .refused
  | _ => .refused

def defaultHome : String := "~/.cellgraph"

/-- Read a command line. -/
def read (arguments : List String) : Reading :=
  match readLevel programGrammar {} arguments with
  | .complete _ => .refused
  | .refused => .refused
  | .help => .help .program
  | .version => .version
  | .command _ .help rest => readHelp rest
  | .command g t rest =>
    match readLevel (grammar t) {} rest with
    | .complete inner =>
      match t.command? inner with
      | some command => .invocation
          { home := (g.options.lookup "home").getD defaultHome
            logLevel := g.options.lookup "log-level"
            command }
      | none => .refused
    | .help => .help t
    | _ => .refused

end SelfWiring.CommandLine
