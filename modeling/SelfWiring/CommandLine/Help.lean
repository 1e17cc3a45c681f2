import SelfWiring.CommandLine.Arguments

/-! # Help

The texts shown for `--help`, one for the program and one for each command. Every entry of a list
is padded to the longest one.
-/

namespace SelfWiring.CommandLine

/-- What a command does. -/
def Topic.about : Topic → String
  | program => "Self-wiring computation graph engine"
  | run => "Start both worker pools and feed them JSON submissions from stdin"
  | submit => "Append one submission to the durable input queue"
  | status => "Show queue depths and the size of the learned graph"
  | inspect => "Show a behaviour's cell and successors (a random one if no id is given)"
  | init => "Write a default config file"
  | help => "Print this message or the help of the given subcommand(s)"

/-- What may follow the program's name. -/
def Topic.usage : Topic → String
  | program => "[OPTIONS] <COMMAND>"
  | run => "run [OPTIONS]"
  | submit => "submit [OPTIONS] --input <INPUT> --session <SESSION>"
  | status => "status"
  | inspect => "inspect [BEHAVIOUR_ID]"
  | init => "init"
  | help => "help [COMMAND]..."

def helpEntry : String × String := ("  -h, --help", "Print help")

/-- The options of a topic with their descriptions. -/
def Topic.options : Topic → List (String × String)
  | program =>
    [("      --home <HOME>", "Path to cellgraph home directory [default: ~/.cellgraph]"),
      ("      --log-level <LOG_LEVEL>",
        "Log level (debug, info, warn, error). Overrides the config file"),
      helpEntry, ("  -V, --version", "Print version")]
  | run =>
    [("      --memory", "Use a throwaway in-memory store instead of the database"), helpEntry]
  | submit =>
    [("      --input <INPUT>", ""), ("      --session <SESSION>", ""),
      ("      --expectation <EXPECTATION>", ""),
      ("      --echo", "Send the input straight to the output cell"), helpEntry]
  | help => []
  | _ => [helpEntry]

/-- The plain arguments of a topic with their descriptions. -/
def Topic.arguments : Topic → List (String × String)
  | inspect => [("  [BEHAVIOUR_ID]", "")]
  | help => [("  [COMMAND]...", "Print help for the subcommand(s)")]
  | _ => []

def padTo (width : Nat) (s : String) : String := s ++ "".pushn ' ' (width - s.length)

/-- A list under a heading, its descriptions below each other. -/
def block (heading : String) (entries : List (String × String)) : List String :=
  if entries.isEmpty then []
  else
    let width := (entries.map (·.1.length)).foldl max 0
    "" :: heading :: entries.map fun (entry, about) => padTo (width + 2) entry ++ about

/-- The lines of help about a topic. -/
def Topic.lines (t : Topic) : List String :=
  let commands := if t = .program then
      block "Commands:" (Topic.commands.map fun c => ("  " ++ c.name, c.about))
    else []
  [t.about, "", "Usage: cellgraph " ++ t.usage] ++ commands ++ block "Arguments:" t.arguments ++
    block "Options:" t.options

def versionText : String := "cellgraph 0.1.0"

end SelfWiring.CommandLine
