import SelfWiring.Store.Call
import SelfWiring.Store.ClassGlob

/-! # The table store

The same store as rows of tables, the way a database file holds it: texts by key, list items under
ascending numbers, a header row for every set beside the rows of its members, and sorted-set rows
by key and member. A row number is never used twice within a table, and a score that is a negative
zero is kept as zero.
-/

namespace SelfWiring

structure ListRow where
  id : Nat
  list : String
  value : String

structure MemberRow where
  id : Nat
  key : String
  member : String

structure ScoreRow where
  key : String
  member : String
  score : Score

structure Tables where
  texts : List (String × String) := []
  items : List ListRow := []
  nextItem : Nat := 1
  headers : List String := []
  members : List MemberRow := []
  nextMember : Nat := 1
  scores : List ScoreRow := []

namespace Tables

/-- Insert a row, or replace the one with the same key. -/
def upsert (key value : String) (rows : List (String × String)) : List (String × String) :=
  if rows.any (·.1 == key) then rows.map fun r => if r.1 = key then (key, value) else r
  else rows ++ [(key, value)]

def text? (t : Tables) (key : String) : Option String := (t.texts.find? (·.1 == key)).map (·.2)

/-- The oldest item of a list. -/
def oldest? (t : Tables) (list : String) : Option ListRow :=
  ((t.items.filter (·.list == list)).mergeSort (fun a b => a.id ≤ b.id)).head?

/-- Insert a member unless its set holds it already. -/
def addMember (key : String) (t : Tables) (member : String) : Tables :=
  if t.members.any fun r => r.key == key && r.member == member then t
  else { t with
    members := t.members ++ [⟨t.nextMember, key, member⟩]
    nextMember := t.nextMember + 1 }

/-- Insert the header of a set unless it is there. -/
def addHeader (key : String) (t : Tables) : Tables :=
  if t.headers.contains key then t else { t with headers := t.headers ++ [key] }

def membersOf (t : Tables) (key : String) : List String :=
  ((t.members.filter (·.key == key)).mergeSort (fun a b => a.id ≤ b.id)).map (·.member)

def putScore (row : ScoreRow) (rows : List ScoreRow) : List ScoreRow :=
  if rows.any fun r => r.key == row.key && r.member == row.member then
    rows.map fun r => if r.key = row.key ∧ r.member = row.member then row else r
  else rows ++ [row]

def scoresOf (t : Tables) (key : String) : List (String × Score) :=
  ((t.scores.filter (·.key == key)).map fun r => (r.member, r.score)).mergeSort Score.leads

/-- The union of the text keys and the set keys. -/
def keys (t : Tables) : List String :=
  let texts := t.texts.map (·.1)
  texts ++ t.headers.filter fun k => !texts.contains k

/-- The keys that match a pattern. A pattern that is too long is an error as soon as a key has to be
matched. -/
def matching (t : Tables) (pattern : String) : Except StoreError (List String) :=
  if ClassGlob.isTooLong pattern && t.keys.any (ClassGlob.mayMatch pattern) then
    .error (.backend "LIKE or GLOB pattern too complex")
  else .ok (t.keys.filter (classGlobMatch pattern))

def perform : (c : StoreCall) → Tables → Except StoreError c.Answer × Tables
  | .get key, t => (answerFor key (t.text? key), t)
  | .set key value, t => (.ok (), { t with texts := upsert key value t.texts })
  | .incr key, t =>
    let n := nextCount (t.text? key)
    (.ok n, { t with texts := upsert key (countText n) t.texts })
  | .push list value, t =>
    (.ok (), { t with
      items := t.items ++ [⟨t.nextItem, list, value⟩]
      nextItem := t.nextItem + 1 })
  | .pop list, t =>
    match t.oldest? list with
    | some row => (.ok (some row.value), { t with items := t.items.filter (·.id != row.id) })
    | none => (.ok none, t)
  | .len list, t => (.ok (t.items.filter (·.list == list)).length, t)
  | .setInit key members, t =>
    if t.headers.contains key then (.ok false, t)
    else (.ok true, members.foldl (addMember key) (addHeader key t))
  | .setAdd key members, t => (.ok (), members.foldl (addMember key) (addHeader key t))
  | .setMembers key, t =>
    (answerFor key (if t.headers.contains key then some (t.membersOf key) else none), t)
  | .zadd key member score, t =>
    if score.isNaN then (.error (.backend "NOT NULL constraint failed: zsets.score"), t)
    else (.ok (), { t with scores := putScore ⟨key, member, score.unsignedZero⟩ t.scores })
  | .zrange key, t => (.ok (t.scoresOf key), t)
  | .randomKey pattern, t => ((t.matching pattern).bind fun keys => answerFor pattern keys.head?, t)
  | .countKeys pattern, t => ((t.matching pattern).map List.length, t)

end Tables

instance : Store Tables where
  perform := Tables.perform

end SelfWiring
