import Bdtrace.General.Scripts
import Bdtrace.Store.Tables
import Mathlib.Algebra.Group.Nat.Defs
import Mathlib.Data.Finset.Insert

/-! Trace databases of every schema version, and the statements that upgrade them. -/
namespace Bdtrace
open Scripts

/-- The columns of `processes` that schema versions 3, 4 and 5 added. -/
inductive ProcessColumn where
  | userTimeUs | sysTimeUs | peakRssKb | ioReadBytes | ioWriteBytes | cwd | fileCount | failCount
  deriving DecidableEq, Repr

/-- A row with the default in one column. -/
def ProcessRecord.reset (r : ProcessRecord) : ProcessColumn → ProcessRecord
  | .userTimeUs => { r with userTimeUs := 0 }
  | .sysTimeUs => { r with sysTimeUs := 0 }
  | .peakRssKb => { r with peakRssKb := 0 }
  | .ioReadBytes => { r with ioReadBytes := 0 }
  | .ioWriteBytes => { r with ioWriteBytes := 0 }
  | .cwd => { r with cwd := [] }
  | .fileCount => { r with fileCount := 0 }
  | .failCount => { r with failCount := 0 }

def ProcessRecord.withCounts (r : ProcessRecord) (counts : Int × Int) : ProcessRecord :=
  { r with fileCount := counts.1, failCount := counts.2 }

private theorem ProcessRecord.withCounts_reset (r : ProcessRecord) (counts : Int × Int) {c : ProcessColumn}
    (hfile : c ≠ .fileCount) (hfail : c ≠ .failCount) (h : r.reset c = r) :
    (r.withCounts counts).reset c = r.withCounts counts := by
  cases c
  case fileCount => exact absurd rfl hfile
  case failCount => exact absurd rfl hfail
  all_goals exact congrArg (·.withCounts counts) h

/-- The table `processes` with some of its later columns. Rows hold the default in a column that is not there. -/
structure ProcessTable where
  columns : Finset ProcessColumn
  rows : List ProcessRecord
  absent : ∀ r ∈ rows, ∀ c ∉ columns, r.reset c = r

/-- An access row of schema versions 1 to 5. `fd` may be null. -/
structure NamedAccess where
  id : Int
  pid : Int
  filename : Str
  mode : Int
  detail : Option Int
  timestampUs : Int
  deriving DecidableEq, Repr

/-- An access row of schema version 6. -/
structure InternedAccess where
  id : Int
  pid : Int
  fileId : Int
  mode : Int
  detail : Option Int
  timestampUs : Int
  deriving DecidableEq, Repr

inductive AccessTable where
  /-- The layout up to version 5, with or without the column `timestamp_us`. -/
  | named (timestamps : Bool) (rows : List NamedAccess)
  | interned (rows : List InternedAccess)
  deriving DecidableEq, Repr

/-- `file_accesses` and `failed_accesses`. -/
inductive AccessKind where
  | file | failed
  deriving DecidableEq, Repr

def AccessTable.pids : AccessTable → List Int
  | named _ rows => rows.map (·.pid)
  | interned rows => rows.map (·.pid)

/-- The tables of a database file; `none` for a table that does not exist. -/
@[ext] structure TraceFile where
  processes : ProcessTable
  files : Option (List FileRow)
  access : AccessKind → Option AccessTable
  /-- `file_accesses_v6` and `failed_accesses_v6`. -/
  scratch : AccessKind → Option (List InternedAccess)

namespace ProcessTable
variable (t : ProcessTable)

/-- `ALTER TABLE processes ADD COLUMN`. -/
def addColumn (c : ProcessColumn) : Option ProcessTable :=
  if c ∈ t.columns then none
  else some ⟨insert c t.columns, t.rows, fun r hr d hd => t.absent r hr d fun h => hd (Finset.mem_insert_of_mem h)⟩

/-- `UPDATE processes SET` on the counts. -/
def setCounts (f : ProcessRecord → Int × Int) : Option ProcessTable :=
  if h : .fileCount ∈ t.columns ∧ .failCount ∈ t.columns then
    some ⟨t.columns, t.rows.map fun r => r.withCounts (f r), by
      intro r hr c hc
      obtain ⟨q, hq, rfl⟩ := List.mem_map.mp hr
      exact q.withCounts_reset (f q) (fun heq => hc (heq ▸ h.1)) (fun heq => hc (heq ▸ h.2)) (t.absent q hq c hc)⟩
  else none

end ProcessTable

namespace TraceFile
variable (s : TraceFile)

def hasTable (k : AccessKind) : Bool := (s.access k).isSome

/-- `has_table(...) && has_column(..., "filename")`. -/
def namedLayout (k : AccessKind) : Bool :=
  match s.access k with
  | some (.named _ _) => true
  | _ => false

/-- The rows of an access table by pid: `SELECT COUNT(*) ... WHERE pid = ?`. -/
def countOf (k : AccessKind) (pid : Int) : Nat := (((s.access k).map (·.pids)).getD []).count pid

/-- The rows of a new table with the names of their files: `JOIN files f ON f.id = a.file_id`. -/
def namedBy (fs : List FileRow) (rows : List InternedAccess) : List NamedAccess :=
  rows.flatMap fun a => (fs.filter fun f => f.id = a.fileId).map fun f =>
    ⟨a.id, a.pid, f.path, a.mode, a.detail, a.timestampUs⟩

/-- The rows of an access table with their names, as `get_all_file_accesses` reads them. -/
def named (k : AccessKind) : List NamedAccess :=
  match s.access k with
  | none => []
  | some (.named true rows) => rows
  | some (.named false rows) => rows.map fun a => { a with timestampUs := 0 }
  | some (.interned rows) => namedBy (s.files.getD []) rows

/-! ### Statements -/

def alterProcesses (c : ProcessColumn) (s : TraceFile) : Option TraceFile :=
  (s.processes.addColumn c).map fun t => { s with processes := t }

/-- `ALTER TABLE file_accesses ADD COLUMN timestamp_us`. -/
def addTimestamps (s : TraceFile) : Option TraceFile :=
  match s.access .file with
  | some (.named false rows) =>
    some { s with
      access := Function.update s.access .file (some (.named true (rows.map fun a => { a with timestampUs := 0 }))) }
  | _ => none

/-- `CREATE TABLE IF NOT EXISTS failed_accesses`. -/
def createFailed (s : TraceFile) : Option TraceFile :=
  some (if s.hasTable .failed then s else { s with access := Function.update s.access .failed (some (.named true [])) })

/-- `CREATE INDEX IF NOT EXISTS` and `ANALYZE` change no row. -/
def maintain (s : TraceFile) : Option TraceFile := some s

/-- The reset of both counts. -/
def resetCounts (s : TraceFile) : Option TraceFile :=
  (s.processes.setCounts fun _ => (0, 0)).map fun t => { s with processes := t }

/-- The update of `file_count` or of `fail_count` from the access rows. -/
def updateCount (k : AccessKind) (s : TraceFile) : Option TraceFile :=
  if s.hasTable k then
    (s.processes.setCounts fun r => match k with
      | .file => (s.countOf .file r.pid, r.failCount)
      | .failed => (r.fileCount, s.countOf .failed r.pid)).map fun t => { s with processes := t }
  else none

/-- `CREATE TABLE IF NOT EXISTS files`. -/
def createFiles (s : TraceFile) : Option TraceFile := some { s with files := some (s.files.getD []) }

/-- `INSERT OR IGNORE INTO files(path)` of one name. -/
def internName (fs : List FileRow) (path : Str) : List FileRow :=
  if path ∈ fs.map (·.path) then fs else fs ++ [⟨nextRowid (fs.map (·.id)), path⟩]

/-- `INSERT OR IGNORE INTO files(path) SELECT DISTINCT filename`, in one of the orders that SQL allows. -/
def internNames (k : AccessKind) (s : TraceFile) : Option TraceFile :=
  match s.files, s.access k with
  | some fs, some (.named _ rows) => some { s with files := some ((rows.map (·.filename)).dedup.foldl internName fs) }
  | _, _ => none

/-- `CREATE TABLE file_accesses_v6` or `failed_accesses_v6`. -/
def createScratch (k : AccessKind) (s : TraceFile) : Option TraceFile :=
  match s.scratch k with
  | some _ => none
  | none => some { s with scratch := Function.update s.scratch k (some []) }

/-- The rows with the ids of their names: `JOIN files f ON f.path = a.filename`. -/
def joinNames (fs : List FileRow) (rows : List NamedAccess) : List InternedAccess :=
  rows.flatMap fun a =>
    (fs.filter fun f => f.path = a.filename).map fun f => ⟨a.id, a.pid, f.id, a.mode, a.detail, a.timestampUs⟩

/-- `INSERT INTO ..._v6 SELECT ... JOIN`: fails without the column `timestamp_us`, and on a repeated id. -/
def copyRows (k : AccessKind) (s : TraceFile) : Option TraceFile :=
  match s.files, s.access k, s.scratch k with
  | some fs, some (.named true rows), some new =>
    if ((new ++ joinNames fs rows).map (·.id)).Nodup then
      some { s with scratch := Function.update s.scratch k (some (new ++ joinNames fs rows)) }
    else none
  | _, _, _ => none

/-- `DROP TABLE`. -/
def dropTable (k : AccessKind) (s : TraceFile) : Option TraceFile :=
  match s.access k with
  | none => none
  | some _ => some { s with access := Function.update s.access k none }

/-- `ALTER TABLE ..._v6 RENAME TO`. -/
def renameScratch (k : AccessKind) (s : TraceFile) : Option TraceFile :=
  match s.access k, s.scratch k with
  | none, some rows => some { s with
      access := Function.update s.access k (some (.interned rows))
      scratch := Function.update s.scratch k none }
  | _, _ => none

/-- The statements that convert one table. -/
def convert (k : AccessKind) : List (TraceFile → Option TraceFile) :=
  [internNames k, createScratch k, copyRows k, dropTable k, renameScratch k]

/-- The statements between BEGIN and COMMIT. -/
def conversion (s : TraceFile) : List (TraceFile → Option TraceFile) :=
  createFiles :: (if s.namedLayout .file then convert .file else []) ++
    if s.namedLayout .failed then convert .failed else []

/-- `Database::migrate_to_interned`. -/
def migrateToInterned : Script TraceFile :=
  .look fun s =>
    if !s.namedLayout .file && !s.namedLayout .failed then .done true else .transaction s.conversion

/-- `Database::populate_counts`. -/
def populateCounts : Script TraceFile :=
  (Script.all [resetCounts, updateCount .file]).bind fun ok =>
    if ok then .look fun s => if s.hasTable .failed then Script.all [updateCount .failed] else .done true
    else .done false

end TraceFile
end Bdtrace
