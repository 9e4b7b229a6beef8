import Bdtrace.Types

/-! The tables of schema v6 and the statements that the tracer prepares on them. -/
namespace Bdtrace

/-- A row of `files(id, path)`. -/
structure FileRow where
  id : Int
  path : Str
  deriving DecidableEq, Repr

structure FileAccessRow where
  id : Int
  pid : Int
  fileId : Int
  mode : Int
  fd : Int
  timestampUs : Int
  deriving DecidableEq, Repr

structure FailedAccessRow where
  id : Int
  pid : Int
  fileId : Int
  mode : Int
  errnoVal : Int
  timestampUs : Int
  deriving DecidableEq, Repr

/-- The one row that has its key. -/
theorem filter_key {α β : Type} [DecidableEq β] (g : α → β) {l : List α} (h : (l.map g).Nodup) {x : α} (hx : x ∈ l) :
    l.filter (fun y => g y = g x) = [x] := by
  induction l with
  | nil => cases hx
  | cons y l ih =>
    rw [List.map_cons, List.nodup_cons] at h
    rcases List.mem_cons.mp hx with rfl | hx
    · rw [List.filter_cons_of_pos (by simp), List.filter_eq_nil_iff.mpr]
      intro z hz heq
      exact h.1 (List.mem_map.mpr ⟨z, hz, by simpa using heq⟩)
    · have hne : g y ≠ g x := fun heq => h.1 (List.mem_map.mpr ⟨x, hx, heq.symm⟩)
      rw [List.filter_cons_of_neg (by simpa using hne), ih h.2 hx]

structure Tables where
  processes : List ProcessRecord := []
  files : List FileRow := []
  fileAccesses : List FileAccessRow := []
  failedAccesses : List FailedAccessRow := []
  deriving DecidableEq, Repr

/-- The rowid SQLite gives to a row inserted without one: the largest plus one. -/
def nextRowid (ids : List Int) : Int := ids.foldl max 0 + 1

/-- The columns that `INSERT INTO processes` binds; the others take their defaults. -/
def ProcessRecord.bound (rec : ProcessRecord) : ProcessRecord :=
  { pid := rec.pid, ppid := rec.ppid, cmdline := rec.cmdline, startTimeUs := rec.startTimeUs
    endTimeUs := rec.endTimeUs, exitCode := rec.exitCode, cwd := rec.cwd }

def ProcessRecord.finish (r : ProcessRecord) (x : ProcessExit) : ProcessRecord :=
  { r with endTimeUs := x.endTimeUs, exitCode := x.exitCode, userTimeUs := x.userTimeUs
           sysTimeUs := x.sysTimeUs, peakRssKb := x.peakRssKb, ioReadBytes := x.ioReadBytes
           ioWriteBytes := x.ioWriteBytes }

namespace Tables

/-- The primary keys of `processes`. -/
def pids (t : Tables) : List Int := t.processes.map (·.pid)

/-- `INSERT INTO processes`: fails when the primary key is taken. -/
def insertProcess (rec : ProcessRecord) (t : Tables) : Option Tables :=
  if rec.pid ∈ t.pids then none else some { t with processes := t.processes ++ [rec.bound] }

/-- `UPDATE processes SET end_time_us = ?, ... WHERE pid = ?`. -/
def updateProcessExit (pid : Int) (x : ProcessExit) (t : Tables) : Tables :=
  { t with processes := t.processes.map fun r => if r.pid = pid then r.finish x else r }

/-- `DELETE FROM processes WHERE pid = ?`. -/
def deleteProcess (pid : Int) (t : Tables) : Tables :=
  { t with processes := t.processes.filter fun r => r.pid ≠ pid }

/-- `SELECT id FROM files WHERE path = ?`. -/
def fileId (path : Str) (t : Tables) : Option Int := (t.files.find? fun f => f.path = path).map (·.id)

/-- `INSERT OR IGNORE INTO files (path) VALUES (?)`. -/
def internInsert (path : Str) (t : Tables) : Tables :=
  if (t.fileId path).isSome then t
  else { t with files := t.files ++ [⟨nextRowid (t.files.map (·.id)), path⟩] }

/-- `INSERT INTO file_accesses`. -/
def insertFileAccess (fid : Int) (rec : FileAccessRecord) (t : Tables) : Tables :=
  { t with fileAccesses := t.fileAccesses ++
      [⟨nextRowid (t.fileAccesses.map (·.id)), rec.pid, fid, rec.mode.code, rec.fd, rec.timestampUs⟩] }

/-- `INSERT INTO failed_accesses`. -/
def insertFailedAccess (fid : Int) (rec : FailedAccessRecord) (t : Tables) : Tables :=
  { t with failedAccesses := t.failedAccesses ++
      [⟨nextRowid (t.failedAccesses.map (·.id)), rec.pid, fid, rec.mode.code, rec.errnoVal, rec.timestampUs⟩] }

/-- A process row with both counts taken from the access rows. -/
def counted (t : Tables) (r : ProcessRecord) : ProcessRecord :=
  { r with fileCount := (t.fileAccesses.filter fun a => a.pid = r.pid).length
           failCount := (t.failedAccesses.filter fun a => a.pid = r.pid).length }

/-- `Database::populate_counts`. -/
def populateCounts (t : Tables) : Tables := { t with processes := t.processes.map t.counted }

/-- An access row with its path looked up, as the viewers join it. -/
structure StoredAccess where
  pid : Int
  path : Option Str
  mode : Int
  detail : Int
  timestampUs : Int
  deriving DecidableEq, Repr

/-- `SELECT path FROM files WHERE id = ?`. -/
def pathOf (t : Tables) (fid : Int) : Option Str := (t.files.find? fun f => f.id = fid).map (·.path)

def accesses (t : Tables) : List StoredAccess :=
  t.fileAccesses.map fun a => ⟨a.pid, t.pathOf a.fileId, a.mode, a.fd, a.timestampUs⟩

def failures (t : Tables) : List StoredAccess :=
  t.failedAccesses.map fun a => ⟨a.pid, t.pathOf a.fileId, a.mode, a.errnoVal, a.timestampUs⟩

/-- The ids that the access rows name. -/
def accessPids (t : Tables) : List Int := t.fileAccesses.map (·.pid) ++ t.failedAccesses.map (·.pid)

/-- `files.id` is a key and every access row names a file. -/
structure Sound (t : Tables) : Prop where
  fileIds : (t.files.map (·.id)).Nodup
  accessFiles : ∀ a ∈ t.fileAccesses, a.fileId ∈ t.files.map (·.id)
  failureFiles : ∀ a ∈ t.failedAccesses, a.fileId ∈ t.files.map (·.id)

instance (t : Tables) : Decidable t.Sound :=
  decidable_of_iff ((t.files.map (·.id)).Nodup ∧ (∀ a ∈ t.fileAccesses, a.fileId ∈ t.files.map (·.id)) ∧
      ∀ a ∈ t.failedAccesses, a.fileId ∈ t.files.map (·.id))
    ⟨fun h => ⟨h.1, h.2.1, h.2.2⟩, fun h => ⟨h.1, h.2, h.3⟩⟩

@[simp] theorem updateProcessExit_pids (pid : Int) (x : ProcessExit) (t : Tables) :
    (t.updateProcessExit pid x).pids = t.pids := by
  simp only [pids, updateProcessExit, List.map_map]
  apply List.map_congr_left
  intro r _
  simp only [Function.comp_apply]
  split <;> rfl

@[simp] theorem deleteProcess_pids (pid : Int) (t : Tables) :
    (t.deleteProcess pid).pids = t.pids.filter (fun p => p ≠ pid) := by
  simp [pids, deleteProcess, List.filter_map, Function.comp_def]

@[simp] theorem populateCounts_pids (t : Tables) : t.populateCounts.pids = t.pids := by
  simp [pids, populateCounts, counted, Function.comp_def]

theorem accessPids_eq (t : Tables) :
    t.accessPids = t.accesses.map (·.pid) ++ t.failures.map (·.pid) := by
  simp [accessPids, accesses, failures, Function.comp_def]

@[simp] theorem populateCounts_accesses (t : Tables) : t.populateCounts.accesses = t.accesses := rfl

@[simp] theorem populateCounts_failures (t : Tables) : t.populateCounts.failures = t.failures := rfl

@[simp] theorem populateCounts_counted (t : Tables) : t.populateCounts.counted = t.counted := rfl

theorem fileId_mem {path : Str} {t : Tables} {fid : Int} (h : t.fileId path = some fid) :
    ⟨fid, path⟩ ∈ t.files := by
  obtain ⟨f, hf, rfl⟩ := Option.map_eq_some_iff.mp h
  have hp : f.path = path := by simpa using List.find?_some hf
  subst hp
  exact List.mem_of_find?_eq_some hf

theorem foldl_max_ge (ids : List Int) (m : Int) :
    m ≤ ids.foldl max m ∧ ∀ i ∈ ids, i ≤ ids.foldl max m := by
  induction ids generalizing m with
  | nil => simp
  | cons i ids ih =>
    obtain ⟨hm, hi⟩ := ih (max m i)
    refine ⟨(le_max_left m i).trans hm, fun j hj => ?_⟩
    rcases List.mem_cons.mp hj with rfl | hj
    · exact (le_max_right m j).trans hm
    · exact hi j hj

theorem foldl_max_mem (ids : List Int) (m : Int) : ids.foldl max m = m ∨ ids.foldl max m ∈ ids := by
  induction ids generalizing m with
  | nil => exact .inl rfl
  | cons i ids ih =>
    rw [List.foldl_cons]
    rcases ih (max m i) with h | h
    · rcases max_choice m i with hmax | hmax
      · exact .inl (h.trans hmax)
      · rw [h, hmax]
        exact .inr List.mem_cons_self
    · exact .inr (List.mem_cons_of_mem _ h)

theorem nextRowid_not_mem (ids : List Int) : nextRowid ids ∉ ids := fun h => by
  have := (foldl_max_ge ids 0).2 _ h
  simp only [nextRowid] at this
  omega

theorem pathOf_of_mem {t : Tables} (hs : (t.files.map (·.id)).Nodup) {fid : Int} {path : Str}
    (h : ⟨fid, path⟩ ∈ t.files) : t.pathOf fid = some path := by
  obtain ⟨f, hf⟩ : ∃ f, t.files.find? (fun f => f.id = fid) = some f :=
    Option.isSome_iff_exists.mp (by simpa using ⟨_, h, rfl⟩)
  have hid : f.id = fid := by simpa using List.find?_some hf
  have hfm := List.mem_of_find?_eq_some hf
  have : f = ⟨fid, path⟩ := List.inj_on_of_nodup_map hs hfm h hid
  simp [pathOf, hf, this]

/-- Files added under fresh ids leave the joined paths alone. -/
theorem pathOf_append {t : Tables} {fid : Int} (h : fid ∈ t.files.map (·.id)) (fs : List FileRow) :
    ({ t with files := t.files ++ fs } : Tables).pathOf fid = t.pathOf fid := by
  obtain ⟨f, hf, hid⟩ := List.mem_map.mp h
  have : (t.files.find? fun f => f.id = fid).isSome := by simpa using ⟨f, hf, hid⟩
  obtain ⟨g, hg⟩ := Option.isSome_iff_exists.mp this
  simp [pathOf, List.find?_append, hg]

end Tables
end Bdtrace
