import SelfWiring.Store.Call
import SelfWiring.Store.Dict
import SelfWiring.Store.Glob

/-! # The memory store

Texts, lists, sets and sorted sets in four dictionaries. Nothing survives a restart.
-/

namespace SelfWiring

structure Memory where
  texts : Dict String := {}
  lists : Dict (List String) := {}
  sets : Dict (List String) := {}
  sorted : Dict (Dict Score) := {}

namespace Memory

/-- The text and set keys that match a pattern, each once. -/
def matching (m : Memory) (pattern : String) : List String :=
  let texts := m.texts.keys.filter (globMatch pattern)
  texts ++ (m.sets.keys.filter (globMatch pattern)).filter fun k => !m.texts.contains k

/-- The entries of a sorted set in the total order of scores. -/
def ranked (entries : List (String × Score)) : List (String × Score) :=
  entries.mergeSort Score.leads

def perform : (c : StoreCall) → Memory → Except StoreError c.Answer × Memory
  | .get key, m => (answerFor key (m.texts.get? key), m)
  | .set key value, m => (.ok (), { m with texts := m.texts.insert key value })
  | .incr key, m =>
    let n := nextCount (m.texts.get? key)
    (.ok n, { m with texts := m.texts.insert key (countText n) })
  | .push list value, m =>
    (.ok (), { m with lists := m.lists.insert list ((m.lists.get? list).getD [] ++ [value]) })
  | .pop list, m =>
    match m.lists.get? list with
    | some (head :: rest) => (.ok (some head), { m with lists := m.lists.insert list rest })
    | _ => (.ok none, m)
  | .len list, m => (.ok ((m.lists.get? list).getD []).length, m)
  | .setInit key members, m =>
    if m.sets.contains key then (.ok false, m)
    else (.ok true, { m with sets := m.sets.insert key (addMembers [] members) })
  | .setAdd key members, m =>
    (.ok (), { m with sets := m.sets.insert key (addMembers ((m.sets.get? key).getD []) members) })
  | .setMembers key, m => (answerFor key (m.sets.get? key), m)
  | .zadd key member score, m =>
    let entries := (m.sorted.get? key).getD {}
    (.ok (), { m with sorted := m.sorted.insert key (entries.insert member score) })
  | .zrange key, m => (.ok (ranked ((m.sorted.get? key).getD {}).entries), m)
  | .randomKey pattern, m => (answerFor pattern (m.matching pattern).head?, m)
  | .countKeys pattern, m => (.ok (m.matching pattern).length, m)

end Memory

instance : Store Memory where
  perform := Memory.perform

end SelfWiring
