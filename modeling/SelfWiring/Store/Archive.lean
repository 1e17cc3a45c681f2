import SelfWiring.Json.Form
import SelfWiring.Store.Database

/-! # Archives

The text that a database is kept in between two runs: one JSON document with the rows of every
table. A text of nothing stands for a database that was never set up, and a text that is no such
document is a file of another format.
-/

namespace SelfWiring

namespace Json

def asNat? : Json → Option Nat
  | .number (.integer n) => if 0 ≤ n then some n.toNat else none
  | _ => none

end Json

namespace VersionCell

def write : VersionCell → Json
  | integer n => .integer n
  | other => .null

def ofJson? : Json → Option VersionCell
  | .number (.integer n) => some (integer n)
  | .null => some other
  | _ => none

end VersionCell

namespace ListRow

def write (r : ListRow) : Json := .array [.integer r.id, .text r.list, .text r.value]

def ofJson? : Json → Option ListRow
  | .array [id, list, value] => do
    return { id := ← id.asNat?, list := ← list.asText?, value := ← value.asText? }
  | _ => none

end ListRow

namespace MemberRow

def write (r : MemberRow) : Json := .array [.integer r.id, .text r.key, .text r.member]

def ofJson? : Json → Option MemberRow
  | .array [id, key, member] => do
    return { id := ← id.asNat?, key := ← key.asText?, member := ← member.asText? }
  | _ => none

end MemberRow

namespace ScoreRow

/-- The score is written as the number that its bits spell. -/
def write (r : ScoreRow) : Json :=
  .array [.text r.key, .text r.member, .integer r.score.bits.toNat]

def ofJson? : Json → Option ScoreRow
  | .array [key, member, bits] => do
    return {
      key := ← key.asText?, member := ← member.asText?
      score := ⟨UInt64.ofNat (← bits.asNat?)⟩ }
  | _ => none

end ScoreRow

namespace Tables

def writeText (entry : String × String) : Json := .array [.text entry.1, .text entry.2]

def textOfJson? : Json → Option (String × String)
  | .array [key, value] => do return (← key.asText?, ← value.asText?)
  | _ => none

def write (t : Tables) : Json :=
  .array [.array (t.texts.map writeText), .array (t.items.map ListRow.write), .integer t.nextItem,
    .array (t.headers.map .text), .array (t.members.map MemberRow.write), .integer t.nextMember,
    .array (t.scores.map ScoreRow.write)]

def ofJson? : Json → Option Tables
  | .array [texts, items, nextItem, headers, members, nextMember, scores] => do
    return {
      texts := ← texts.asList? textOfJson?, items := ← items.asList? ListRow.ofJson?
      nextItem := ← nextItem.asNat?, headers := ← headers.asList? Json.asText?
      members := ← members.asList? MemberRow.ofJson?, nextMember := ← nextMember.asNat?
      scores := ← scores.asList? ScoreRow.ofJson? }
  | _ => none

end Tables

namespace Database

/-- The text that keeps a database. -/
def archive (d : Database) : String :=
  (Json.record [("versions", .array (d.versions.map VersionCell.write)),
    ("tables", d.tables.write)]).print

/-- The database that a text keeps. -/
def ofArchive? (text : String) : Option Database :=
  if text.isEmpty then some { versions := [] }
  else
    let fields := [⟨["versions"], false⟩, ⟨["tables"], false⟩]
    match (Json.read? text).bind (Json.fields? fields) with
    | some [some versions, some tables] => do
      return {
        versions := ← versions.asList? VersionCell.ofJson?
        tables := ← Tables.ofJson? tables }
    | _ => none

/-- What stands at a path where a file with this text is. -/
def Site.ofText (text : String) : Site := ((ofArchive? text).map .database).getD .foreign

end Database

end SelfWiring
