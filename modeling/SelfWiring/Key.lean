import SelfWiring.Text.Integer

/-! # Keys

Everything that is learned lives under a handful of keys.

| key | holds |
|---|---|
| `connections b` | set of the behaviours that follow `b` |
| `binding b` | the cell that behaviour `b` runs |
| `firstBehaviour t` | where tree `t` enters the graph |
| `retraversals t` | counter of restarts of `t` |
| `misses t p` | counter of the misses of `t` in walk `p` |
| `done t` | counter that appears when `t` is answered |
| `trace t` | sorted set of the edges that `t` exercised |
| `information i` | the text of information record `i` |
| `informationId s` | the record of text `s` |
| `entry i c` | the entry behaviour of record `i` for cell `c` |
| `outputs s` | list of the results delivered to session `s` |

`render` gives a key its text, and `behaviour?` reads the behaviour back out of the text of a
`connections` key.
-/

namespace SelfWiring

inductive Key where
  | inputQueue
  | eventQueue
  | separator
  | connections (behaviour : String)
  | binding (behaviour : String)
  | firstBehaviour (tree : String)
  | retraversals (tree : String)
  | misses (tree : String) (pass : Int64)
  | done (tree : String)
  | trace (tree : String)
  | information (id : String)
  | informationId (text : String)
  | entry (information cell : String)
  | outputs (session : String)
  deriving DecidableEq

namespace Key

def render : Key → String
  | inputQueue => "queue:inputs"
  | eventQueue => "queue:events"
  | separator => "config:separator"
  | connections b => "behaviour:" ++ b ++ ":connections"
  | binding b => "behaviour:" ++ b ++ ":clg"
  | firstBehaviour t => "tree:" ++ t ++ ":first-behaviour"
  | retraversals t => "tree:" ++ t ++ ":retraversals"
  | misses t p =>
    "tree:" ++ t ++ ":pass:" ++ String.ofList (Text.Integer.render p.toInt) ++ ":misses"
  | done t => "tree:" ++ t ++ ":done"
  | trace t => "tree:" ++ t ++ ":trace"
  | information i => "information:" ++ i ++ ":sequence"
  | informationId s => "information-sequence:" ++ s ++ ":id"
  | entry i c => "information:" ++ i ++ ":entry:" ++ c
  | outputs s => "session:" ++ s ++ ":outputs"

/-- What follows `start` in a text that begins with it. -/
def stripStart? (start text : List Char) : Option (List Char) :=
  if start.isPrefixOf text then some (text.drop start.length) else none

/-- What precedes `ending` in a text that ends with it. -/
def stripEnd? (ending text : List Char) : Option (List Char) :=
  if ending.isSuffixOf text then some (text.take (text.length - ending.length)) else none

/-- The behaviour in the text of a `connections` key. -/
def behaviour? (text : String) : Option String :=
  (stripStart? "behaviour:".toList text.toList).bind fun rest =>
    (stripEnd? ":connections".toList rest).map String.ofList

end Key

end SelfWiring
