import SelfWiring.Error

/-! # SQLite result codes

How a failure reported by SQLite becomes a store error. A result code is a signed 32-bit integer,
whose low byte is its primary code; busy and locked are transient, every other code is a failure of
the backend.
-/

namespace SelfWiring.ResultCode

def primary (code : Int32) : Int32 := code &&& 0xff

/-- Another connection holds the database or one of its tables. -/
def isBusy (code : Int32) : Bool := primary code == 5 || primary code == 6

/-- What a code means, for failures reported without a message. -/
def meaning : Int32 → String
  | 0 => "Successful result"
  | 1 => "SQL logic error"
  | 2 => "Internal logic error in SQLite"
  | 3 => "Access permission denied"
  | 4 => "Callback routine requested an abort"
  | 5 => "The database file is locked"
  | 6 => "A table in the database is locked"
  | 7 => "A malloc() failed"
  | 8 => "Attempt to write a readonly database"
  | 9 => "Operation terminated by sqlite3_interrupt()"
  | 10 => "Some kind of disk I/O error occurred"
  | 11 => "The database disk image is malformed"
  | 12 => "Unknown opcode in sqlite3_file_control()"
  | 13 => "Insertion failed because database is full"
  | 14 => "Unable to open the database file"
  | 15 => "Database lock protocol error"
  | 16 => "Internal use only"
  | 17 => "The database schema changed"
  | 18 => "String or BLOB exceeds size limit"
  | 19 => "Abort due to constraint violation"
  | 20 => "Data type mismatch"
  | 21 => "Library used incorrectly"
  | 22 => "Uses OS features not supported on host"
  | 23 => "Authorization denied"
  | 24 => "Auxiliary database format error"
  | 25 => "2nd parameter to sqlite3_bind out of range"
  | 26 => "File opened that is not a database file"
  | 27 => "Notifications from sqlite3_log()"
  | 28 => "Warnings from sqlite3_log()"
  | 100 => "sqlite3_step() has another row ready"
  | 101 => "sqlite3_step() has finished executing"
  | 257 => "SQLITE_ERROR_MISSING_COLLSEQ"
  | 261 => "Another process is recovering a WAL mode database file"
  | 262 => "Locking conflict due to another connection with a shared cache"
  | 264 => "WAL mode database file needs recovery"
  | 266 => "Error reading from disk"
  | 267 => "Content in the virtual table is corrupt"
  | 270 => "SQLITE_CANTOPEN_NOTEMPDIR"
  | 275 => "A CHECK constraint failed"
  | 279 => "SQLITE_AUTH_USER"
  | 283 => "A WAL mode database file was recovered"
  | 284 => "Automatic indexing used - database might benefit from additional indexes"
  | 513 => "SQLITE_ERROR_RETRY"
  | 516 => "Transaction was rolled back"
  | 517 => "Cannot promote read transaction to write transaction because of writes by " ++
      "another connection"
  | 518 => "SQLITE_LOCKED_VTAB"
  | 520 => "Shared-memory file associated with WAL mode database is read-only"
  | 522 => "Unable to obtain number of requested bytes (file truncated?)"
  | 523 => "SQLITE_CORRUPT_SEQUENCE"
  | 526 => "Attempted to open directory as file"
  | 531 => "Commit hook caused rollback"
  | 539 => "Hot journal was rolled back"
  | 769 => "SQLITE_ERROR_SNAPSHOT"
  | 773 => "SQLITE_BUSY_TIMEOUT"
  | 776 => "Database has hot journal that must be rolled back before it can be opened"
  | 778 => "Error writing to disk"
  | 779 => "SQLITE_CORRUPT_INDEX"
  | 782 => "Unable to get full pathname"
  | 787 => "Foreign key constraint failed"
  | 795 => "SQLITE_NOTICE_RBU"
  | 1032 => "Database file has been moved or deleted"
  | 1034 => "Error flushing data to persistent storage (fsync)"
  | 1038 => "cygwin_conv_path() system call failed"
  | 1043 => "Error returned from extension function"
  | 1288 => "SQLITE_READONLY_CANTINIT"
  | 1290 => "Error calling fsync on a directory"
  | 1294 => "SQLITE_CANTOPEN_DIRTYWAL"
  | 1299 => "A NOT NULL constraint failed"
  | 1544 => "SQLITE_READONLY_DIRECTORY"
  | 1546 => "Error attempting to truncate file"
  | 1550 => "SQLITE_CANTOPEN_SYMLINK"
  | 1555 => "A PRIMARY KEY constraint failed"
  | 1802 => "Error invoking fstat to get file metadata"
  | 1811 => "A RAISE function within a trigger fired"
  | 2058 => "I/O error within xUnlock of a VFS object"
  | 2067 => "A UNIQUE constraint failed"
  | 2314 => "I/O error within xLock of a VFS object (trying to obtain a read lock)"
  | 2323 => "An application-defined virtual table error occurred"
  | 2570 => "I/O error within xDelete of a VFS object"
  | 2579 => "rowid is not unique"
  | 2826 => "SQLITE_IOERR_BLOCKED"
  | 2835 => "SQLITE_CONSTRAINT_PINNED"
  | 3082 => "Out of memory in I/O layer"
  | 3091 => "SQLITE_CONSTRAINT_DATATYPE"
  | 3338 => "I/O error within xAccess of a VFS object"
  | 3594 => "I/O error within then xCheckReservedLock method"
  | 3850 => "I/O error in the advisory file locking layer"
  | 4106 => "I/O error within the xClose method"
  | 4362 => "SQLITE_IOERR_DIR_CLOSE"
  | 4618 => "I/O error within the xShmMap method (trying to open a new shared-memory segment)"
  | 4874 => "I/O error within the xShmMap method (trying to resize an existing shared-memory " ++
      "segment)"
  | 5130 => "SQLITE_IOERR_SHMLOCK"
  | 5386 => "I/O error within the xShmMap method (trying to map a shared-memory segment into " ++
      "process address space)"
  | 5642 => "I/O error within the xRead or xWrite (trying to seek within a file)"
  | 5898 => "File being deleted does not exist"
  | 6154 => "I/O error while trying to map or unmap part of the database file into process " ++
      "address space"
  | 6410 => "VFS is unable to determine a suitable directory for temporary files"
  | 6666 => "cygwin_conv_path() system call failed"
  | 6922 => "SQLITE_IOERR_VNODE"
  | 7178 => "SQLITE_IOERR_AUTH"
  | 7434 => "SQLITE_IOERR_BEGIN_ATOMIC"
  | 7690 => "SQLITE_IOERR_COMMIT_ATOMIC"
  | 7946 => "SQLITE_IOERR_ROLLBACK_ATOMIC"
  | 8202 => "SQLITE_IOERR_DATA"
  | 8458 => "SQLITE_IOERR_CORRUPTFS"
  | 8714 => "SQLITE_IOERR_IN_PAGE"
  | _ => "Unknown error code"

/-- The store error for a failed statement, or for a query without rows when there is no code. -/
def toError : Option Int32 → Option String → StoreError
  | none, _ => .notFound "query returned no rows"
  | some code, message =>
    let words := message.getD s!"Error code {code.toInt}: {meaning code}"
    if isBusy code then .transient words else .backend words

end SelfWiring.ResultCode
