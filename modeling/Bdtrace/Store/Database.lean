import Bdtrace.Store.Tables

/-! The connection that the writer owns: statements inside and outside a transaction,
with a storage layer that may refuse any of them. -/
namespace Bdtrace

/-- The statements that a session issues while it traces. -/
inductive Statement where
  | begin | commit | insertProcess | updateExit | insertFile | insertFailed | deleteProcess
  | internInsert | internSelect
  deriving DecidableEq, Repr

/-- What the storage layer does with a statement that has no logical error of its own. -/
inductive Reply where
  | done | failed | rolledBack
  deriving DecidableEq, Repr

/-- The storage layer's replies while one event is applied. -/
abbrev Disk := Statement → Reply

def Disk.healthy : Disk := fun _ => .done

/-- `tables` is what the connection reads; `committed` is what survives a crash. -/
structure Database where
  tables : Tables := {}
  committed : Tables := {}
  inTransaction : Bool := false
  internCache : Str → Option Int := fun _ => none

namespace Database

/-- A finished statement is durable at once when no transaction is open. -/
def store (t : Tables) (db : Database) : Database :=
  { db with tables := t, committed := if db.inTransaction then db.committed else t }

def rollback (db : Database) : Database := { db with tables := db.committed, inTransaction := false }

/-- Step one statement; `none` from `f` is a constraint violation. -/
def execute (d : Disk) (s : Statement) (f : Tables → Option Tables) (db : Database) : Database × Bool :=
  match d s with
  | .done =>
    match f db.tables with
    | some t => (db.store t, true)
    | none => (db, false)
  | .failed => (db, false)
  | .rolledBack => (db.rollback, false)

def beginTransaction (d : Disk) (db : Database) : Database × Bool :=
  match d .begin with
  | .done => if db.inTransaction then (db, false) else ({ db with inTransaction := true }, true)
  | .failed => (db, false)
  | .rolledBack => (db.rollback, false)

def commitTransaction (d : Disk) (db : Database) : Database × Bool :=
  match d .commit with
  | .done =>
    if db.inTransaction then ({ db with committed := db.tables, inTransaction := false }, true)
    else (db, false)
  | .failed => (db, false)
  | .rolledBack => (db.rollback, false)

def insertProcess (d : Disk) (rec : ProcessRecord) (db : Database) : Database × Bool :=
  db.execute d .insertProcess (Tables.insertProcess rec)

def updateProcessExit (d : Disk) (pid : Int) (x : ProcessExit) (db : Database) : Database × Bool :=
  db.execute d .updateExit fun t => some (t.updateProcessExit pid x)

def deleteProcess (d : Disk) (pid : Int) (db : Database) : Database × Bool :=
  db.execute d .deleteProcess fun t => some (t.deleteProcess pid)

def cacheIntern (path : Str) (fid : Int) (db : Database) : Database :=
  { db with internCache := Function.update db.internCache path (some fid) }

/-- The id of a path, inserted if unseen. The cache is read first and is never invalidated. -/
def internPath (d : Disk) (path : Str) (db : Database) : Database × Option Int :=
  match db.internCache path with
  | some fid => (db, some fid)
  | none =>
    match db.execute d .internInsert fun t => some (t.internInsert path) with
    | (db', false) => (db', none)
    | (db', true) =>
      match db.tables.fileId path with
      | none =>
        -- sqlite3_changes > 0: the id is the rowid just given
        let fid := nextRowid (db.tables.files.map (·.id))
        (db'.cacheIntern path fid, some fid)
      | some _ =>
        match d .internSelect, db'.tables.fileId path with
        | .done, some fid => (db'.cacheIntern path fid, some fid)
        | .rolledBack, _ => (db'.rollback, none)
        | _, _ => (db', none)

def insertFileAccess (d : Disk) (rec : FileAccessRecord) (db : Database) : Database × Bool :=
  match db.internPath d rec.filename with
  | (db', none) => (db', false)
  | (db', some fid) => db'.execute d .insertFile fun t => some (t.insertFileAccess fid rec)

def insertFailedAccess (d : Disk) (rec : FailedAccessRecord) (db : Database) : Database × Bool :=
  match db.internPath d rec.filename with
  | (db', none) => (db', false)
  | (db', some fid) => db'.execute d .insertFailed fun t => some (t.insertFailedAccess fid rec)

/-- A connection to a database that earlier sessions closed: nothing pending, nothing cached. -/
def opened (t : Tables) : Database := { tables := t, committed := t }

section Statements
variable (db : Database) (t : Tables)

@[simp] theorem store_tables : (db.store t).tables = t := rfl
@[simp] theorem store_inTransaction : (db.store t).inTransaction = db.inTransaction := rfl
@[simp] theorem store_internCache : (db.store t).internCache = db.internCache := rfl
@[simp] theorem cacheIntern_tables (p : Str) (i : Int) : (db.cacheIntern p i).tables = db.tables := rfl
@[simp] theorem cacheIntern_committed (p : Str) (i : Int) :
    (db.cacheIntern p i).committed = db.committed := rfl
@[simp] theorem cacheIntern_inTransaction (p : Str) (i : Int) :
    (db.cacheIntern p i).inTransaction = db.inTransaction := rfl

theorem store_committed (h : db.inTransaction = true) : (db.store t).committed = db.committed := by
  simp [store, h]

end Statements
end Database
end Bdtrace
