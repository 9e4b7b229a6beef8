import Bdtrace.Store.HealthyDisk

/-! The half of a trace session that owns the database: it applies queued events in
batches and counts the statements that failed. -/
namespace Bdtrace

/-- One queued trace event. -/
inductive QueuedEvent where
  | procStart (proc : ProcessRecord)
  | procExit (pid : Int) (x : ProcessExit)
  | fileAccess (fa : FileAccessRecord)
  | failedAccess (failed : FailedAccessRecord)
  | deleteProc (pid : Int)
  deriving DecidableEq, Repr

/-- A row that an access event adds, as the viewers read it back. -/
def FileAccessRecord.stored (fa : FileAccessRecord) : Tables.StoredAccess :=
  ⟨fa.pid, some fa.filename, fa.mode.code, fa.fd, fa.timestampUs⟩

def FailedAccessRecord.stored (failed : FailedAccessRecord) : Tables.StoredAccess :=
  ⟨failed.pid, some failed.filename, failed.mode.code, failed.errnoVal, failed.timestampUs⟩

namespace QueuedEvent

/-- The id under which an event addresses the tables. -/
def pid : QueuedEvent → Int
  | procStart proc => proc.pid
  | procExit pid _ => pid
  | fileAccess fa => fa.pid
  | failedAccess failed => failed.pid
  | deleteProc pid => pid

def access : QueuedEvent → Option Tables.StoredAccess
  | fileAccess fa => some fa.stored
  | _ => none

def failure : QueuedEvent → Option Tables.StoredAccess
  | failedAccess failed => some failed.stored
  | _ => none

/-- The only event that a healthy disk refuses: a start whose primary key is taken. -/
def refused : QueuedEvent → List ProcessRecord → Bool
  | procStart proc, rows => decide (proc.pid ∈ rows.map (·.pid))
  | _, _ => false

/-- What an event does to `processes` when no statement fails for lack of storage. -/
def onProcesses : QueuedEvent → List ProcessRecord → List ProcessRecord
  | procStart proc, rows => if proc.pid ∈ rows.map (·.pid) then rows else rows ++ [proc.bound]
  | procExit pid x, rows => rows.map fun r => if r.pid = pid then r.finish x else r
  | deleteProc pid, rows => rows.filter fun r => r.pid ≠ pid
  | _, rows => rows

end QueuedEvent

/-- The `switch` of `apply_event`: one statement, or two where a path is interned. -/
def Database.perform (d : Disk) (ev : QueuedEvent) (db : Database) : Database × Bool :=
  match ev with
  | .procStart proc => db.insertProcess d proc
  | .procExit pid x => db.updateProcessExit d pid x
  | .fileAccess fa => db.insertFileAccess d fa
  | .failedAccess failed => db.insertFailedAccess d failed
  | .deleteProc pid => db.deleteProcess d pid

/-- On a healthy disk only a start under a taken id is refused. -/
theorem Database.perform_healthy {db : Database} (hs : db.Sound) (ev : QueuedEvent) :
    ∃ db', db.perform Disk.healthy ev = (db', !ev.refused db.tables.processes) ∧
      Performed (ev.onProcesses db.tables.processes) ev.access.toList ev.failure.toList db db' := by
  cases ev with
  | procStart proc =>
    by_cases h : proc.pid ∈ db.tables.pids
    · have hrow : proc.pid ∈ db.tables.processes.map (·.pid) := h
      refine ⟨db, ?_, ?_⟩
      · simp only [perform, insertProcess, execute, Disk.healthy, Tables.insertProcess, if_pos h,
          QueuedEvent.refused, decide_eq_true hrow, Bool.not_true]
      · simp only [QueuedEvent.onProcesses, if_pos hrow]
        exact unchanged hs
    · have hrow : proc.pid ∉ db.tables.processes.map (·.pid) := h
      refine ⟨db.store { db.tables with processes := db.tables.processes ++ [proc.bound] }, ?_, ?_⟩
      · simp only [perform, insertProcess, execute, Disk.healthy, Tables.insertProcess, if_neg h,
          QueuedEvent.refused, decide_eq_false hrow, Bool.not_false]
      · simp only [QueuedEvent.onProcesses, if_neg hrow]
        exact store_performed hs _
  | procExit pid x => exact ⟨_, rfl, store_performed hs _⟩
  | fileAccess fa => exact insertFileAccess_healthy hs fa
  | failedAccess failed => exact insertFailedAccess_healthy hs failed
  | deleteProc pid => exact ⟨_, rfl, store_performed hs _⟩

def batchSize : Nat := 5000

structure Writer where
  db : Database := {}
  eventCount : Nat := 0
  inTransaction : Bool := false
  writeErrorCount : Nat := 0
  consecutiveErrors : Nat := 0
  totalEventCount : Nat := 0

namespace Writer

def hasFatalErrors (w : Writer) : Bool := decide (50 ≤ w.consecutiveErrors)

def checkWriteResult (ok : Bool) (w : Writer) : Writer :=
  if ok then { w with consecutiveErrors := 0 }
  else { w with writeErrorCount := w.writeErrorCount + 1, consecutiveErrors := w.consecutiveErrors + 1 }

/-- The result of COMMIT is ignored; the periodic WAL checkpoint changes no row. -/
def maybeCommit (d : Disk) (w : Writer) : Writer :=
  if batchSize ≤ w.eventCount then
    { w with db := (w.db.commitTransaction d).1, inTransaction := false
             totalEventCount := w.totalEventCount + w.eventCount, eventCount := 0 }
  else w

def ensureTransaction (d : Disk) (w : Writer) : Writer :=
  if w.inTransaction then w
  else { w with db := (w.db.beginTransaction d).1, inTransaction := true }

def applyEvent (d : Disk) (w : Writer) (ev : QueuedEvent) : Writer :=
  -- fatal: stop writing
  if 50 ≤ w.consecutiveErrors then w
  else
    let w := w.ensureTransaction d
    let performed := w.db.perform d ev
    let w := { w with db := performed.1 }.checkWriteResult performed.2
    { w with eventCount := w.eventCount + 1 }.maybeCommit d

/-- The commit after the last event, in `writer_loop` and again in `finalize`. -/
def commitOpen (d : Disk) (w : Writer) : Writer :=
  if w.inTransaction then { w with db := (w.db.commitTransaction d).1, inTransaction := false } else w

/-- The queued events of a whole run, applied in order. -/
def applyAll (w : Writer) (es : List QueuedEvent) : Writer := es.foldl (applyEvent Disk.healthy) w

@[simp] theorem applyAll_nil (w : Writer) : w.applyAll [] = w := rfl

@[simp] theorem applyAll_cons (w : Writer) (ev : QueuedEvent) (es : List QueuedEvent) :
    w.applyAll (ev :: es) = (w.applyEvent Disk.healthy ev).applyAll es := rfl

theorem applyAll_append (w : Writer) (es fs : List QueuedEvent) :
    w.applyAll (es ++ fs) = (w.applyAll es).applyAll fs := List.foldl_append

/-- The writer's flag tells whether its connection has a transaction open. -/
structure Steady (w : Writer) : Prop where
  flag : w.db.inTransaction = w.inTransaction
  closed : w.inTransaction = false → w.db.committed = w.db.tables
  sound : w.db.Sound
  errors : w.consecutiveErrors ≤ w.writeErrorCount

/-- The next event completes a batch. -/
def AtBoundary (w : Writer) : Prop := batchSize ≤ w.eventCount + 1

instance (w : Writer) : Decidable w.AtBoundary := inferInstanceAs (Decidable (_ ≤ _))

/-- The writer that `TraceSession::open` starts on the tables of a closed database. -/
def opened (t : Tables) : Writer := { db := Database.opened t }

theorem opened_steady {t : Tables} (h : t.Sound) : (opened t).Steady :=
  ⟨rfl, fun _ => rfl, Database.opened_sound h, le_refl 0⟩

/-- What `apply_event` does on a healthy disk, as long as writing has not stopped. -/
structure Applied (ev : QueuedEvent) (w w' : Writer) : Prop where
  steady : w'.Steady
  processes : w'.db.tables.processes = ev.onProcesses w.db.tables.processes
  accesses : w'.db.tables.accesses = w.db.tables.accesses ++ ev.access.toList
  failures : w'.db.tables.failures = w.db.tables.failures ++ ev.failure.toList
  committed : w'.db.committed = if w.AtBoundary then w'.db.tables else w.db.committed
  eventCount : w'.eventCount = if w.AtBoundary then 0 else w.eventCount + 1
  writeErrorCount : w'.writeErrorCount =
    w.writeErrorCount + (ev.refused w.db.tables.processes).toNat
  consecutiveErrors : w'.consecutiveErrors =
    if ev.refused w.db.tables.processes then w.consecutiveErrors + 1 else 0

private theorem ensureTransaction_steady {w : Writer} (h : w.Steady) :
    (w.ensureTransaction Disk.healthy).Steady ∧ (w.ensureTransaction Disk.healthy).inTransaction = true ∧
      (w.ensureTransaction Disk.healthy).db.tables = w.db.tables ∧
      (w.ensureTransaction Disk.healthy).db.committed = w.db.committed := by
  unfold ensureTransaction
  cases hflag : w.inTransaction with
  | true => exact ⟨h, hflag, rfl, rfl⟩
  | false =>
    have hdb : w.db.inTransaction = false := h.flag.trans hflag
    simp only [Database.beginTransaction, Disk.healthy, hdb, Bool.false_eq_true, if_false, and_self, and_true]
    exact ⟨rfl, fun hc => by simp at hc, ⟨h.sound.tables, h.sound.cache⟩, h.errors⟩

theorem ensureTransaction_counters (d : Disk) (w : Writer) :
    (w.ensureTransaction d).eventCount = w.eventCount ∧
      (w.ensureTransaction d).writeErrorCount = w.writeErrorCount ∧
      (w.ensureTransaction d).consecutiveErrors = w.consecutiveErrors := by
  unfold ensureTransaction
  split <;> simp

private theorem maybeCommit_healthy {w : Writer} (h : w.Steady) (hopen : w.inTransaction = true) :
    (w.maybeCommit Disk.healthy).Steady ∧ (w.maybeCommit Disk.healthy).db.tables = w.db.tables ∧
      (w.maybeCommit Disk.healthy).db.committed =
        if batchSize ≤ w.eventCount then w.db.tables else w.db.committed := by
  have hdb : w.db.inTransaction = true := h.flag.trans hopen
  unfold maybeCommit
  split
  · simp only [Database.commitTransaction, Disk.healthy, hdb, if_true, and_self, and_true]
    exact ⟨rfl, fun _ => rfl, ⟨h.sound.tables, h.sound.cache⟩, h.errors⟩
  · exact ⟨h, rfl, rfl⟩

private theorem maybeCommit_eventCount (d : Disk) (w : Writer) :
    (w.maybeCommit d).eventCount = if batchSize ≤ w.eventCount then 0 else w.eventCount := by
  unfold maybeCommit
  split <;> rfl

theorem applyEvent_eventCount_le (d : Disk) (w : Writer) (ev : QueuedEvent) :
    (w.applyEvent d ev).eventCount ≤ w.eventCount + 1 := by
  unfold applyEvent
  split
  · omega
  · have hcheck : ∀ (ok : Bool) (w : Writer), (w.checkWriteResult ok).eventCount = w.eventCount := fun ok w => by
      unfold checkWriteResult
      split <;> rfl
    simp only [maybeCommit_eventCount, hcheck, (ensureTransaction_counters d w).1]
    split <;> omega

theorem applyEvent_healthy {w : Writer} (h : w.Steady) (hf : w.hasFatalErrors = false) (ev : QueuedEvent) :
    Applied ev w (w.applyEvent Disk.healthy ev) := by
  obtain ⟨he, hopen, htab, hcom⟩ := ensureTransaction_steady h
  obtain ⟨hcount, hwec, hcons⟩ := ensureTransaction_counters Disk.healthy w
  obtain ⟨db', hdo, hp⟩ := Database.perform_healthy he.sound ev
  have hlive : ¬ 50 ≤ w.consecutiveErrors := by simpa [hasFatalErrors] using hf
  have heq : w.applyEvent Disk.healthy ev =
      ({ ({ w.ensureTransaction Disk.healthy with db := db' }.checkWriteResult
          (!ev.refused w.db.tables.processes)) with eventCount := w.eventCount + 1 }).maybeCommit
        Disk.healthy := by
    unfold applyEvent
    rw [if_neg hlive]
    simp only [hdo, htab]
    unfold checkWriteResult
    split <;> simp only [hcount]
  set mid : Writer := { ({ w.ensureTransaction Disk.healthy with db := db' }.checkWriteResult
          (!ev.refused w.db.tables.processes)) with eventCount := w.eventCount + 1 } with hmid
  have hmdb : mid.db = db' := by simp only [hmid, checkWriteResult]; split <;> rfl
  have hmflag : mid.inTransaction = true := by simp only [hmid, checkWriteResult]; split <;> exact hopen
  have hmerr : mid.writeErrorCount = w.writeErrorCount + (ev.refused w.db.tables.processes).toNat ∧
      mid.consecutiveErrors = if ev.refused w.db.tables.processes then w.consecutiveErrors + 1 else 0 := by
    simp only [hmid, checkWriteResult]
    cases ev.refused w.db.tables.processes <;> simp [hwec, hcons]
  have hms : mid.Steady := by
    refine ⟨?_, fun hc => ?_, hmdb ▸ hp.sound, ?_⟩
    · rw [hmdb, hmflag, hp.inTransaction, he.flag, hopen]
    · rw [hmflag] at hc
      exact absurd hc (by decide)
    · rw [hmerr.1, hmerr.2]
      have := h.errors
      split <;> simp_all
  obtain ⟨hs', htab', hcom'⟩ := maybeCommit_healthy hms hmflag
  have herr' : (mid.maybeCommit Disk.healthy).writeErrorCount = mid.writeErrorCount ∧
      (mid.maybeCommit Disk.healthy).consecutiveErrors = mid.consecutiveErrors := by
    unfold maybeCommit
    split <;> exact ⟨rfl, rfl⟩
  have hdbopen : (w.ensureTransaction Disk.healthy).db.inTransaction = true := he.flag.trans hopen
  rw [heq]
  refine ⟨hs', ?_, ?_, ?_, ?_, ?_, herr'.1.trans hmerr.1, herr'.2.trans hmerr.2⟩
  · rw [htab', hmdb, hp.processes, htab]
  · rw [htab', hmdb, hp.accesses, htab]
  · rw [htab', hmdb, hp.failures, htab]
  · rw [hcom', htab', hmdb, hp.committed hdbopen, hcom]
    rfl
  · exact maybeCommit_eventCount Disk.healthy mid

theorem Applied.accessPids {ev : QueuedEvent} {w w' : Writer} (h : Applied ev w w') (i : Int) :
    i ∈ w'.db.tables.accessPids ↔
      i ∈ w.db.tables.accessPids ∨ i ∈ (ev.access.toList ++ ev.failure.toList).map (·.pid) := by
  simp only [Tables.accessPids_eq, h.accesses, h.failures, List.map_append, List.mem_append]
  tauto

/-- Once writing has stopped the writer changes nothing any more. -/
theorem applyEvent_fatal {w : Writer} (d : Disk) (hf : w.hasFatalErrors = true) (ev : QueuedEvent) :
    w.applyEvent d ev = w := by
  unfold applyEvent
  rw [if_pos (by simpa [hasFatalErrors] using hf)]

theorem applyEvent_steady {w : Writer} (h : w.Steady) (ev : QueuedEvent) :
    (w.applyEvent Disk.healthy ev).Steady := by
  cases hf : w.hasFatalErrors with
  | true => rw [applyEvent_fatal _ hf]; exact h
  | false => exact (applyEvent_healthy h hf ev).steady

theorem commitOpen_healthy {w : Writer} (h : w.Steady) :
    (w.commitOpen Disk.healthy).Steady ∧ (w.commitOpen Disk.healthy).inTransaction = false ∧
      (w.commitOpen Disk.healthy).db.tables = w.db.tables ∧
      (w.commitOpen Disk.healthy).db.committed = w.db.tables := by
  unfold commitOpen
  cases hflag : w.inTransaction with
  | true =>
    have hdb : w.db.inTransaction = true := h.flag.trans hflag
    simp only [if_true, Database.commitTransaction, Disk.healthy, hdb, and_self, and_true]
    exact ⟨rfl, fun _ => rfl, ⟨h.sound.tables, h.sound.cache⟩, h.errors⟩
  | false => exact ⟨h, hflag, rfl, h.closed hflag⟩

/-! ### Any disk -/

theorem commitOpen_flag (d : Disk) (w : Writer) : (w.commitOpen d).inTransaction = false := by
  unfold commitOpen
  cases h : w.inTransaction <;> simp [h]

/-- Outside a batch the connection has no transaction open. -/
def Closes (w : Writer) : Prop := w.inTransaction = false → w.db.inTransaction = false

private theorem commitTransaction_closed {d : Disk} (hd : d .commit ≠ .failed) (db : Database) :
    (db.commitTransaction d).1.inTransaction = false := by
  unfold Database.commitTransaction
  cases hr : d .commit with
  | done => cases hi : db.inTransaction <;> simp [hi]
  | failed => exact absurd hr hd
  | rolledBack => rfl

theorem commitOpen_closes {d : Disk} (hd : d .commit ≠ .failed) {w : Writer} (h : w.Closes) :
    (w.commitOpen d).Closes := by
  intro _
  unfold commitOpen
  split
  · exact commitTransaction_closed hd w.db
  · rename_i hf
    exact h (by simpa using hf)

private theorem maybeCommit_closes {d : Disk} (hd : d .commit ≠ .failed) {w : Writer}
    (hopen : w.inTransaction = true) : (w.maybeCommit d).Closes := by
  intro hflag
  unfold maybeCommit at hflag ⊢
  split at hflag <;> rename_i hb
  · rw [if_pos hb]
    exact commitTransaction_closed hd w.db
  · simp [hopen] at hflag

theorem applyEvent_closes {d : Disk} (hd : d .commit ≠ .failed) {w : Writer} (h : w.Closes) (ev : QueuedEvent) :
    (w.applyEvent d ev).Closes := by
  unfold applyEvent
  split
  · exact h
  · apply maybeCommit_closes hd
    have hcheck : ∀ (ok : Bool) (v : Writer), (v.checkWriteResult ok).inTransaction = v.inTransaction := by
      intro ok v
      unfold checkWriteResult
      split <;> rfl
    simp only [hcheck]
    unfold ensureTransaction
    split <;> simp_all

/-! ### A whole run in which no start is refused -/

/-- The rows of `processes` after a sequence of events. -/
def rowsAfter (rows : List ProcessRecord) (es : List QueuedEvent) : List ProcessRecord :=
  es.foldl (fun rows ev => ev.onProcesses rows) rows

/-- No start of the sequence finds its key taken. -/
def Unrefused : List ProcessRecord → List QueuedEvent → Prop
  | _, [] => True
  | rows, ev :: es => ev.refused rows = false ∧ Unrefused (ev.onProcesses rows) es

theorem unrefused_append (rows : List ProcessRecord) (es fs : List QueuedEvent) :
    Unrefused rows (es ++ fs) ↔ Unrefused rows es ∧ Unrefused (rowsAfter rows es) fs := by
  induction es generalizing rows with
  | nil => simp [Unrefused, rowsAfter]
  | cons ev es ih => simp [Unrefused, rowsAfter, ih, and_assoc]

/-- The joined tables after a run that met no error. -/
structure AppliedAll (es : List QueuedEvent) (w w' : Writer) : Prop where
  steady : w'.Steady
  writeErrorCount : w'.writeErrorCount = w.writeErrorCount
  processes : w'.db.tables.processes = rowsAfter w.db.tables.processes es
  accesses : w'.db.tables.accesses = w.db.tables.accesses ++ es.filterMap QueuedEvent.access
  failures : w'.db.tables.failures = w.db.tables.failures ++ es.filterMap QueuedEvent.failure

theorem applyAll_unrefused {w : Writer} (h : w.Steady) (h0 : w.writeErrorCount = 0) {es : List QueuedEvent}
    (hes : Unrefused w.db.tables.processes es) : AppliedAll es w (w.applyAll es) := by
  induction es generalizing w with
  | nil => exact ⟨h, rfl, rfl, by simp, by simp⟩
  | cons ev es ih =>
    obtain ⟨hev, hes⟩ := hes
    have hf : w.hasFatalErrors = false := by
      have := h.errors
      simp only [hasFatalErrors, decide_eq_false_iff_not]
      omega
    have ha := applyEvent_healthy h hf ev
    have herr : (w.applyEvent Disk.healthy ev).writeErrorCount = w.writeErrorCount := by
      simp [ha.writeErrorCount, hev]
    obtain ⟨hst, hwec, hpr, hac, hfa⟩ := ih ha.steady (herr.trans h0) (ha.processes ▸ hes)
    refine ⟨hst, hwec.trans herr, ?_, ?_, ?_⟩
    · simp only [applyAll_cons, hpr, ha.processes, rowsAfter, List.foldl_cons]
    · simp only [applyAll_cons, hac, ha.accesses, List.append_assoc, List.append_cancel_left_eq]
      cases hq : ev.access <;> simp [hq]
    · simp only [applyAll_cons, hfa, ha.failures, List.append_assoc, List.append_cancel_left_eq]
      cases hq : ev.failure <;> simp [hq]

end Writer
end Bdtrace
