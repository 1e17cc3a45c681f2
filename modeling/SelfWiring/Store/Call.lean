import SelfWiring.Error
import SelfWiring.Store.Score

/-! # Store calls

The operations of a store as data. Each is atomic on a single key, and none spans keys. `Answer`
gives the type of what a successful call returns. A store is anything that can perform calls.
-/

namespace SelfWiring

inductive StoreCall where
  /-- Read a text. -/
  | get (key : String)
  /-- Write a text, replacing the previous one. -/
  | set (key value : String)
  /-- Add one to a counter and return it. -/
  | incr (key : String)
  /-- Append to the tail of a list. -/
  | push (list value : String)
  /-- Take the head of a list. -/
  | pop (list : String)
  | len (list : String)
  /-- Create a set unless there is one, and say whether this call created it. -/
  | setInit (key : String) (members : List String)
  /-- Add members to a set, creating it if need be. -/
  | setAdd (key : String) (members : List String)
  /-- The members of a set in the order in which they were added. -/
  | setMembers (key : String)
  /-- Give a member of a sorted set its score. -/
  | zadd (key member : String) (score : Score)
  /-- The members of a sorted set, lowest score first. -/
  | zrange (key : String)
  /-- Some text or set key that matches a pattern. -/
  | randomKey (pattern : String)
  /-- How many text and set keys match a pattern. -/
  | countKeys (pattern : String)
  deriving DecidableEq

/-- The operations without their arguments. -/
inductive Method where
  | get
  | set
  | incr
  | push
  | pop
  | len
  | setInit
  | setAdd
  | setMembers
  | zadd
  | zrange
  | randomKey
  | countKeys
  deriving DecidableEq

namespace Method

def name : Method → String
  | get => "get"
  | set => "set"
  | incr => "incr"
  | push => "push"
  | pop => "pop"
  | len => "len"
  | setInit => "set_init"
  | setAdd => "set_add"
  | setMembers => "set_members"
  | zadd => "zadd"
  | zrange => "zrange"
  | randomKey => "random_key"
  | countKeys => "count_keys"

def all : List Method :=
  [get, set, incr, push, pop, len, setInit, setAdd, setMembers, zadd, zrange, randomKey, countKeys]

def ofName? (name : String) : Option Method := all.find? (·.name == name)

end Method

namespace StoreCall

abbrev Answer : StoreCall → Type
  | get _ => String
  | set _ _ => Unit
  | incr _ => Int64
  | push _ _ => Unit
  | pop _ => Option String
  | len _ => Nat
  | setInit _ _ => Bool
  | setAdd _ _ => Unit
  | setMembers _ => List String
  | zadd _ _ _ => Unit
  | zrange _ => List (String × Score)
  | randomKey _ => String
  | countKeys _ => Nat

def method : StoreCall → Method
  | get _ => .get
  | set _ _ => .set
  | incr _ => .incr
  | push _ _ => .push
  | pop _ => .pop
  | len _ => .len
  | setInit _ _ => .setInit
  | setAdd _ _ => .setAdd
  | setMembers _ => .setMembers
  | zadd _ _ _ => .zadd
  | zrange _ => .zrange
  | randomKey _ => .randomKey
  | countKeys _ => .countKeys

/-- The key, list name or pattern that a call is about. -/
def subject : StoreCall → String
  | get key | set key _ | incr key | push key _ | pop key | len key | setInit key _ | setAdd key _
  | setMembers key | zadd key _ _ | zrange key | randomKey key | countKeys key => key

/-- Whether a call can change what is stored. -/
def writes : StoreCall → Bool
  | set _ _ | incr _ | push _ _ | pop _ | setInit _ _ | setAdd _ _ | zadd _ _ _ => true
  | _ => false

end StoreCall

/-- A store performs a call and becomes another store. -/
class Store (σ : Type) where
  perform : (c : StoreCall) → σ → Except StoreError c.Answer × σ
  /-- The store after a call by another process, which passes none of the layers above it. -/
  elsewhere : (c : StoreCall) → σ → σ := fun c s => (perform c s).2

/-- The answer of a call that reads something: what is stored, or that nothing is. -/
def answerFor (key : String) : Option α → Except StoreError α
  | some a => .ok a
  | none => .error (.notFound key)

/-- The text of a counter one higher. A text that is no integer counts as zero. -/
def nextCount (stored : Option String) : Int64 :=
  (stored.bind Text.Integer.read?).getD 0 + 1

/-- The text under which a counter is stored. -/
def countText (n : Int64) : String := String.ofList (Text.Integer.render n.toInt)

/-- Members added at the end of a list, each at most once. -/
def addMembers (present : List String) (members : List String) : List String :=
  members.foldl (fun ms m => if ms.contains m then ms else ms ++ [m]) present

end SelfWiring
