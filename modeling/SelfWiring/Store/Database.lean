import SelfWiring.Store.Tables
import SelfWiring.Store.Version

/-! # Database files

A database file holds the tables and, in a table of its own, the version of its layout. Opening
reads the first version row. A file without a usable version is set up and gets one; a file of a
newer version is refused and left as it is. While another process holds the write lock, and in a
file that is opened for reading only, calls that write fail and calls that read go on.
-/

namespace SelfWiring

structure Database where
  versions : List VersionCell
  tables : Tables := {}
  /-- Another process holds the write lock. -/
  locked : Bool := false
  /-- The file was opened for reading only. -/
  readOnly : Bool := false

/-- What may be done with the file of a database. -/
inductive Access where
  | read
  | write
  /-- Create the file where there is none. -/
  | create
  /-- Have no file at all. -/
  | memory
  deriving DecidableEq

namespace Access

def ofWord? : String → Option Access
  | "ro" => some read
  | "rw" => some write
  | "rwc" => some create
  | "memory" => some memory
  | _ => none

/-- The more is allowed, the higher. -/
def rank : Access → Nat
  | read => 0
  | write => 1
  | create => 2
  | memory => 3

end Access

namespace Database

/-- The version of the layout that this library writes. -/
def supportedVersion : Nat := 1

/-- The version in the first row, where it is an unsigned 32-bit integer; zero otherwise. -/
def layoutVersion : List VersionCell → Nat
  | .integer n :: _ => if 0 ≤ n ∧ n < 0x100000000 then n.toNat else 0
  | _ => 0

/-- Why a file of a newer version is not opened. -/
def newer (version : Nat) : StoreError :=
  .backend s!"database schema v{version} is newer than supported v{supportedVersion}"

/-- Set up a database without a version, accept the supported one, refuse a newer one. Either way
the file is given as it is afterwards. -/
def migrate (d : Database) : Except StoreError Unit × Database :=
  let version := layoutVersion d.versions
  if version = 0 then (.ok (), { d with versions := d.versions ++ [.integer supportedVersion] })
  else if supportedVersion < version then (.error (newer version), d)
  else (.ok (), d)

/-- A database that has just been created. -/
def fresh : Database := { versions := [.integer supportedVersion] }

/-- Why a file that was opened for reading only is not written. -/
def refusal : StoreError := .backend "attempt to write a readonly database"

/-- Why there is no opening a file. -/
def unreachable (path : String) : StoreError :=
  .backend ("unable to open database file: " ++ path)

def perform (c : StoreCall) (d : Database) : Except StoreError c.Answer × Database :=
  if d.locked && c.writes then (.error (.transient "database is locked"), d)
  else if d.readOnly && c.writes then (.error refusal, d)
  else
    let (answer, tables) := d.tables.perform c
    (answer, { d with tables })

/-- What stands at the path of a database. -/
inductive Site where
  /-- Nothing, perhaps not even the directory that would hold it. -/
  | vacant (hasDirectory : Bool)
  | database (d : Database)
  /-- A file of another format. -/
  | foreign
  | directory (path : String)
  /-- The directory that should hold the file is itself a file. -/
  | underFile

/-- Open the database at a site. A file that is missing is created if it may be, along with its
directories. What stands at the site afterwards is given as well. -/
def Site.opening (access : Access) (site : Site) : Except StoreError Database × Site :=
  match site with
  | .vacant _ =>
    if access.rank < Access.create.rank then (.error (unreachable ""), site)
    else (.ok fresh, if access = .create then .database fresh else site)
  | .database d =>
    if access = .read ∧ layoutVersion d.versions = 0 then (.error refusal, site)
    else
      let (outcome, d) := d.migrate
      (outcome.map fun () => { d with readOnly := d.readOnly || access == .read }, .database d)
  | .foreign => (.error (.backend "file is not a database"), site)
  | .directory path => (.error (unreachable path), site)
  | .underFile => (.error (.backend "File exists (os error 17)"), site)

def Site.openAs (access : Access) (site : Site) : Except StoreError Database :=
  (site.opening access).1

/-- Open the database at a site for reading and writing, creating it where nothing is. -/
def openAt (site : Site) : Except StoreError Database := site.openAs .create

end Database

instance : Store Database where
  perform := Database.perform

end SelfWiring
