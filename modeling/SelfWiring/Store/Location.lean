import SelfWiring.Json.Token
import SelfWiring.Store.Database
import SelfWiring.Text.Pieces

/-! # Names of databases

A database is named by the path of its file, or by a URI with the scheme `file:` whose query says
how the file is opened. The empty path and `:memory:` name a database that is kept nowhere: whoever
opens it gets a new one. Directories are created above a file that is named by its path, and not
above one that is named by a URI.
-/

namespace SelfWiring

structure Location where
  path : String
  access : Access := .create
  isUri : Bool := false

namespace Location

/-! ### Paths -/

/-- The parts of a path; empty ones and single dots stay where they are. -/
def parts (path : String) : List String :=
  ((Text.pieces ['/'] path.toList).map String.ofList).filter fun part => part != "" && part != "."

/-- Go on to a part from a place, given with its last part first. Two dots go back. -/
def follow (place : List String) (part : String) : List String :=
  if part = ".." then place.drop 1 else part :: place

/-- The path that parts lead to. -/
def reached (absolute : Bool) (parts : List String) : String :=
  (if absolute then "/" else "") ++ "/".intercalate (parts.foldl follow []).reverse

/-- A path without detours. -/
def tidy (path : String) : String := reached (path.startsWith "/") (parts path)

/-- The tidy paths that a path passes through before its end. -/
def stations (path : String) : List String :=
  let ps := parts path
  (List.range ps.length).map fun n => reached (path.startsWith "/") (ps.take n)

/-- The directory of a tidy path. -/
def directoryOf (path : String) : String :=
  reached (path.startsWith "/") (parts path).dropLast

/-! ### URIs -/

/-- The bytes that a stretch of a URI stands for. An escaped zero byte ends it. -/
def unescape : List Char → List UInt8
  | '%' :: a :: b :: rest =>
    match Json.hexValue? a, Json.hexValue? b with
    | some high, some low =>
      if high = 0 ∧ low = 0 then [] else UInt8.ofNat (high * 16 + low) :: unescape rest
    | _, _ => 0x25 :: unescape (a :: b :: rest)
  | c :: rest => (String.singleton c).toUTF8.toList ++ unescape rest
  | [] => []

/-- The text of a stretch of a URI. Bytes that spell no text are read as a character each. -/
def unescaped (cs : List Char) : String :=
  let bytes := unescape cs
  (String.fromUTF8? ⟨bytes.toArray⟩).getD (String.ofList (bytes.map fun b => Char.ofNat b.toNat))

/-- What stands before the first of a character, and what stands behind it. -/
def cut (c : Char) (cs : List Char) : List Char × List Char :=
  (cs.takeWhile (· != c), (cs.dropWhile (· != c)).drop 1)

/-- The named options of a query. -/
def options (query : List Char) : List (String × String) :=
  ((Text.pieces ['&'] query).map fun option =>
    let (name, value) := cut '=' option
    (unescaped name, unescaped value)).filter (·.1 != "")

/-- A location that is opened as one more option says. Access can be lowered and not raised. -/
def adjust (l : Location) : String × String → Except String Location
  | ("mode", word) =>
    match Access.ofWord? word with
    | none => .error ("no such access mode: " ++ word)
    | some access =>
      if access = .memory || access.rank ≤ l.access.rank then .ok { l with access }
      else .error ("access mode not allowed: " ++ word)
  | ("cache", word) =>
    if word = "shared" || word = "private" then .ok l
    else .error ("no such cache mode: " ++ word)
  | ("vfs", word) =>
    if ["unix", "unix-excl", "unix-none", "unix-dotfile"].contains word then .ok l
    else if word = "memdb" then .ok { l with path := "" }
    else .error ("no such vfs: " ++ word)
  | _ => .ok l

/-- Whether the value of an option means yes. -/
def isYes (value : String) : Bool :=
  match value.toList.takeWhile Char.isDigit with
  | [] => ["on", "yes", "true"].contains value.toLower
  | digits => Nat.ofDigitChars 10 digits 0 % 256 != 0

/-- The path in what follows the scheme and the two slashes of an authority. -/
def afterAuthority (rest : List Char) : Except String (List Char) :=
  let authority := String.ofList (rest.takeWhile (· != '/'))
  if authority = "" ∨ authority = "localhost" then .ok (rest.dropWhile (· != '/'))
  else .error ("invalid uri authority: " ++ authority)

/-- The location that a URI names, given without its scheme. -/
def ofUri (rest : List Char) : Except String Location := do
  let rest ← match rest with
    | '/' :: '/' :: rest => afterAuthority rest
    | rest => .ok rest
  let (path, query) := cut '?' (rest.takeWhile (· != '#'))
  let options := options query
  let l ← options.foldlM adjust { path := unescaped path, isUri := true }
  if ((options.lookup "immutable").map isYes).getD false && l.access != .memory && l.path != "" then
    return { l with access := .read }
  else return l

/-- The location that a name stands for. -/
def ofName (name : String) : Except StoreError Location :=
  match name.toList with
  | 'f' :: 'i' :: 'l' :: 'e' :: ':' :: rest =>
    if rest.contains '\x00' then .error hasNul else (ofUri rest).mapError .backend
  | cs => if cs.contains '\x00' then .error hasNul else .ok { path := name }
where
  hasNul : StoreError :=
    let position := name.toUTF8.toList.idxOf 0
    .backend s!"nul byte found in provided data at position: {position}"

/-! ### Opening -/

/-- Whether the database is kept nowhere. -/
def isThrowaway (l : Location) : Bool :=
  l.access == .memory || l.path.isEmpty || l.path == ":memory:"

/-- The path of the file that keeps the database, if one does. -/
def keptAt? (l : Location) : Option String :=
  if l.isThrowaway || l.access == .read then none else some (tidy l.path)

/-- What stands at a location, given all files and directories and the databases among them. -/
def siteAmong (directories files : List String) (databases : List (String × Database))
    (l : Location) : Database.Site :=
  let path := tidy l.path
  let isDirectory := fun (path : String) =>
    path = "" || path = "/" || directories.contains path || files.any (·.startsWith (path ++ "/"))
  if !l.isUri && (stations l.path).any files.contains then .underFile
  else if files.any fun file => path.startsWith (file ++ "/") then .underFile
  else if isDirectory path then .directory path
  else match databases.lookup path with
    | some d => .database d
    | none =>
      if files.contains path then .foreign
      else .vacant (isDirectory (directoryOf path))

/-- Open the database at a location. -/
def openAt (l : Location) (site : Database.Site) : Except StoreError Database :=
  if l.isThrowaway then
    if l.access = .read then .error Database.refusal else .ok Database.fresh
  else match site with
    | .vacant false =>
      if l.isUri then .error (Database.unreachable l.path) else site.openAs l.access
    | site => site.openAs l.access

end Location

end SelfWiring
