import Bdtrace.Session.FailingWriter
import Bdtrace.Session.InterruptedTrace

/-! When a run that counted no write error has committed all that it accepted. -/
namespace Bdtrace

/-- The tables hold the effect of the events, up to the two count columns that `finalize` computes. -/
structure Tables.HasEffects (t : Tables) (es : List QueuedEvent) (t' : Tables) : Prop where
  processes : t'.processes.map (·.withCounts (0, 0)) = (Writer.rowsAfter t.processes es).map (·.withCounts (0, 0))
  accesses : t'.accesses = t.accesses ++ es.filterMap QueuedEvent.access
  failures : t'.failures = t.failures ++ es.filterMap QueuedEvent.failure

namespace Database

/-- Statements of one call, run until one fails. -/
def runUntilFailure : List (Reply × (Tables → Tables)) → Database → Database
  | [], db => db
  | (.done, f) :: rest, db => (db.store (f db.tables)).runUntilFailure rest
  | (.failed, _) :: _, db => db
  | (.rolledBack, _) :: _, db => db.rollback

/-- `create_indexes`, `populate_counts` and `analyze`, each with the replies to its statements. -/
def maintain (indexes : List Reply) (reset fileCount failCount analyze : Reply) (db : Database) : Database :=
  let db := db.runUntilFailure (indexes.map fun r => (r, id))
  let db := db.runUntilFailure [(reset, Tables.resetCounts), (fileCount, Tables.updateFileCount),
    (failCount, Tables.updateFailCount)]
  db.runUntilFailure [(analyze, id)]

end Database

/-- A run of the writer: the events it takes from the queue, and the replies of the disk to them and to what
`writer_loop` (if there is a writer thread) and `finalize` do after the last one. -/
structure WriterRun where
  events : List DiskEvent
  async : Bool
  atThreadExit : Disk := Disk.healthy
  atFinalize : Disk := Disk.healthy
  indexes : List Reply := List.replicate 6 .done
  reset : Reply := .done
  fileCount : Reply := .done
  failCount : Reply := .done
  analyze : Reply := .done

namespace WriterRun

/-- The writer after the last event. -/
def drained (r : WriterRun) (t : Tables) : Writer := (Writer.opened t).applyOn r.events

/-- The writer after `finalize`. -/
def finalized (r : WriterRun) (t : Tables) : Writer :=
  let w := if r.async then (r.drained t).commitOpen r.atThreadExit else r.drained t
  let w := w.commitOpen r.atFinalize
  { w with db := w.db.maintain r.indexes r.reset r.fileCount r.failCount r.analyze }

/-- The events that the session accepted. -/
def accepted (r : WriterRun) : List QueuedEvent := r.events.map Prod.snd

end WriterRun

namespace Writer

/-- No BEGIN or COMMIT of the event is answered by a rollback that takes something back. -/
def RollsBackNothing (d : Disk) (w : Writer) (ev : QueuedEvent) : Prop :=
  (w.inTransaction = false → d .begin = .rolledBack → w.db.committed = w.db.tables) ∧
    (batchSize ≤ (w.beforeCommit d ev).eventCount → d .commit = .rolledBack →
      (w.beforeCommit d ev).db.committed = (w.beforeCommit d ev).db.tables)

end Writer

/-- No BEGIN or COMMIT of the run is answered by a rollback that takes something back, and what is not yet committed
after the last event is in a transaction that the next COMMIT commits. -/
structure WriterRun.LosesNothing (r : WriterRun) (t : Tables) : Prop where
  events : ∀ before e after, r.events = before ++ e :: after →
    ((Writer.opened t).applyOn before).RollsBackNothing e.1 e.2
  last : (r.drained t).db.committed = (r.drained t).db.tables ∨
    (r.drained t).inTransaction = true ∧ (if r.async then r.atThreadExit else r.atFinalize) .commit = .done

/-! ### One event -/

namespace Writer

private theorem ensureTransaction_kept {d : Disk} {w : Writer} {ev : QueuedEvent} (hs : w.db.Sound) (hd : w.db.Durable)
    (h : w.RollsBackNothing d ev) :
    (w.ensureTransaction d).db.Sound ∧ (w.ensureTransaction d).db.Durable ∧
      (w.ensureTransaction d).db.tables = w.db.tables := by
  unfold ensureTransaction
  split
  · exact ⟨hs, hd, rfl⟩
  · rename_i hflag
    have hdurable := Database.beginTransaction_durable hd d
    have htables : (w.db.beginTransaction d).1.tables = w.db.tables ∧
        (w.db.beginTransaction d).1.internCache = w.db.internCache := by
      rw [Database.beginTransaction]
      cases hb : d .begin with
      | done =>
        simp only
        split <;> exact ⟨rfl, rfl⟩
      | failed => exact ⟨rfl, rfl⟩
      | rolledBack => exact ⟨h.1 (by simpa using hflag) hb, rfl⟩
    exact ⟨⟨htables.1 ▸ hs.tables, htables.1 ▸ htables.2 ▸ hs.cache⟩, hdurable, htables.1⟩

/-- What an event that counts no error does, with its statements on a disk that rolls back nothing. -/
structure Recorded (ev : QueuedEvent) (w w' : Writer) : Prop where
  sound : w'.db.Sound
  durable : w'.db.Durable
  processes : w'.db.tables.processes = ev.onProcesses w.db.tables.processes
  accesses : w'.db.tables.accesses = w.db.tables.accesses ++ ev.access.toList
  failures : w'.db.tables.failures = w.db.tables.failures ++ ev.failure.toList

private theorem beforeCommit_recorded {d : Disk} {w : Writer} {ev : QueuedEvent} (hs : w.db.Sound) (hd : w.db.Durable)
    (h : w.RollsBackNothing d ev) (hok : ((w.ensureTransaction d).db.perform d ev).2 = true) :
    Recorded ev w (w.beforeCommit d ev) := by
  obtain ⟨hs', hd', htables⟩ := ensureTransaction_kept hs hd h
  have hdurable := Database.perform_durable hd' d ev
  obtain ⟨db', hperform, hperformed⟩ := Database.perform_healthy hs' ev
  rw [Database.perform_of_true hok, hperform] at hdurable
  have hdb : (w.beforeCommit d ev).db = db' := by
    rw [beforeCommit_db, Database.perform_of_true hok, hperform]
  rw [htables] at hperformed
  refine ⟨hdb ▸ hperformed.sound, hdb ▸ hdurable, ?_, ?_, ?_⟩
  · rw [hdb, hperformed.processes]
  · rw [hdb, hperformed.accesses, htables]
  · rw [hdb, hperformed.failures, htables]

private theorem maybeCommit_kept {d : Disk} {w : Writer} (hs : w.db.Sound) (hd : w.db.Durable)
    (h : batchSize ≤ w.eventCount → d .commit = .rolledBack → w.db.committed = w.db.tables) :
    (w.maybeCommit d).db.Sound ∧ (w.maybeCommit d).db.Durable ∧ (w.maybeCommit d).db.tables = w.db.tables := by
  unfold maybeCommit
  split
  · rename_i hfull
    have hdurable := Database.commitTransaction_durable hd d
    have htables : (w.db.commitTransaction d).1.tables = w.db.tables ∧
        (w.db.commitTransaction d).1.internCache = w.db.internCache := by
      rw [Database.commitTransaction]
      cases hc : d .commit with
      | done =>
        simp only
        split <;> exact ⟨rfl, rfl⟩
      | failed => exact ⟨rfl, rfl⟩
      | rolledBack => exact ⟨h hfull hc, rfl⟩
    exact ⟨⟨htables.1 ▸ hs.tables, htables.1 ▸ htables.2 ▸ hs.cache⟩, hdurable, htables.1⟩
  · exact ⟨hs, hd, rfl⟩

/-- An event counts an error, or its statements all succeeded. -/
private theorem applyEvent_errors {d : Disk} {w : Writer} {ev : QueuedEvent}
    (hle : w.consecutiveErrors ≤ w.writeErrorCount)
    (h : (w.applyEvent d ev).writeErrorCount = 0) :
    w.writeErrorCount = 0 ∧ ((w.ensureTransaction d).db.perform d ev).2 = true ∧
      w.applyEvent d ev = (w.beforeCommit d ev).maybeCommit d := by
  rw [applyEvent_eq] at h ⊢
  split at h
  · omega
  · rename_i hlive
    rw [(maybeCommit_writeErrorCount _ _).1, (beforeCommit_errors d w ev).1, Nat.add_eq_zero_iff] at h
    refine ⟨h.1, ?_, if_neg hlive⟩
    cases hok : ((w.ensureTransaction d).db.perform d ev).2 with
    | true => rfl
    | false => simp [hok] at h

/-- Events without an error are all in the tables, and nothing but COMMIT is missing. -/
private theorem applyOn_recorded {t : Tables} (ht : t.Sound) {es : List DiskEvent}
    (hes : ∀ before e after, es = before ++ e :: after → ((opened t).applyOn before).RollsBackNothing e.1 e.2)
    (hcount : ((opened t).applyOn es).writeErrorCount = 0) :
    ((opened t).applyOn es).db.Sound ∧ ((opened t).applyOn es).db.Durable ∧
      ((opened t).applyOn es).db.tables.processes = rowsAfter t.processes (es.map Prod.snd) ∧
      ((opened t).applyOn es).db.tables.accesses = t.accesses ++ (es.map Prod.snd).filterMap QueuedEvent.access ∧
      ((opened t).applyOn es).db.tables.failures = t.failures ++ (es.map Prod.snd).filterMap QueuedEvent.failure := by
  induction es using List.reverseRecOn with
  | nil =>
    refine ⟨Database.opened_sound ht, fun _ => rfl, rfl, ?_, ?_⟩
    · exact (List.append_nil _).symm
    · exact (List.append_nil _).symm
  | append_singleton es e ih =>
    rw [applyOn_snoc] at hcount ⊢
    obtain ⟨hzero, hok, heq⟩ := applyEvent_errors (applyOn_consecutive t es) hcount
    have hbefore : ∀ before f after, es = before ++ f :: after →
        ((opened t).applyOn before).RollsBackNothing f.1 f.2 := by
      intro before f after hsplit
      exact hes before f (after ++ [e]) (by rw [hsplit, List.append_assoc, List.cons_append])
    obtain ⟨hs, hd, hprocesses, haccesses, hfailures⟩ := ih hbefore hzero
    have hkept := hes es e [] rfl
    have hrec := beforeCommit_recorded hs hd hkept hok
    obtain ⟨hs', hd', htables⟩ := maybeCommit_kept hrec.sound hrec.durable hkept.2
    rw [heq]
    refine ⟨hs', hd', ?_, ?_, ?_⟩
    · rw [htables, hrec.processes, hprocesses, List.map_append, rowsAfter, rowsAfter, List.foldl_append]
      rfl
    · rw [htables, hrec.accesses, haccesses, List.map_append, List.filterMap_append, List.append_assoc]
      rfl
    · rw [htables, hrec.failures, hfailures, List.map_append, List.filterMap_append, List.append_assoc]
      rfl

private theorem commitOpen_writeErrorCount (d : Disk) (w : Writer) :
    (w.commitOpen d).writeErrorCount = w.writeErrorCount := by
  unfold commitOpen
  split <;> rfl

/-- A commit of all that is open leaves nothing uncommitted. -/
private theorem commitOpen_committed {d : Disk} {w : Writer} (hd : w.db.Durable)
    (h : w.db.committed = w.db.tables ∨ w.inTransaction = true ∧ d .commit = .done) :
    (w.commitOpen d).db.committed = w.db.tables ∧ (w.commitOpen d).db.tables = w.db.tables := by
  unfold commitOpen
  split
  · rw [Database.commitTransaction]
    cases hc : d .commit with
    | done =>
      cases hopen : w.db.inTransaction with
      | true => exact ⟨rfl, rfl⟩
      | false => exact ⟨hd hopen, rfl⟩
    | failed => exact ⟨h.resolve_right fun hboth => (by simp [hc] at hboth), rfl⟩
    | rolledBack =>
      have heq := h.resolve_right fun hboth => (by simp [hc] at hboth)
      exact ⟨heq, heq⟩
  · rename_i hclosed
    exact ⟨h.resolve_right fun hboth => hclosed hboth.1, rfl⟩

end Writer

/-! ### The statements after the last commit -/

/-- The same rows, up to the two count columns. -/
structure Tables.SameButCounts (t t' : Tables) : Prop where
  processes : t'.processes.map (·.withCounts (0, 0)) = t.processes.map (·.withCounts (0, 0))
  accesses : t'.accesses = t.accesses
  failures : t'.failures = t.failures

theorem Tables.SameButCounts.trans {t u v : Tables} (h : t.SameButCounts u) (h' : u.SameButCounts v) :
    t.SameButCounts v :=
  ⟨h'.processes.trans h.processes, h'.accesses.trans h.accesses, h'.failures.trans h.failures⟩

private theorem Tables.sameButCounts_refl (t : Tables) : t.SameButCounts t := ⟨rfl, rfl, rfl⟩

/-- A statement that only sets counts. -/
private theorem Tables.sameButCounts_map (t : Tables) (counts : ProcessRecord → Int × Int) :
    t.SameButCounts { t with processes := t.processes.map fun r => r.withCounts (counts r) } := by
  refine ⟨?_, rfl, rfl⟩
  simp only [List.map_map]
  apply List.map_congr_left
  intro r _
  rfl

private theorem Database.runUntilFailure_same {t : Tables} {db : Database} {steps : List (Reply × (Tables → Tables))}
    (hsteps : ∀ s ∈ steps, ∀ u : Tables, u.SameButCounts (s.2 u)) (htables : t.SameButCounts db.tables)
    (hcommitted : t.SameButCounts db.committed) :
    t.SameButCounts (db.runUntilFailure steps).tables ∧ t.SameButCounts (db.runUntilFailure steps).committed := by
  induction steps generalizing db with
  | nil => exact ⟨htables, hcommitted⟩
  | cons s rest ih =>
    obtain ⟨reply, f⟩ := s
    cases reply with
    | done =>
      have hf := htables.trans (hsteps (.done, f) List.mem_cons_self db.tables)
      apply ih fun s hs => hsteps s (List.mem_cons_of_mem _ hs)
      · exact hf
      · simp only [store]
        split
        · exact hcommitted
        · exact hf
    | failed => exact ⟨htables, hcommitted⟩
    | rolledBack => exact ⟨hcommitted, hcommitted⟩

private theorem Database.maintain_same {t : Tables} {db : Database} (indexes : List Reply)
    (reset fileCount failCount analyze : Reply) (htables : t.SameButCounts db.tables)
    (hcommitted : t.SameButCounts db.committed) :
    t.SameButCounts (db.maintain indexes reset fileCount failCount analyze).committed := by
  have hindexes : ∀ s ∈ indexes.map fun r => (r, id), ∀ u : Tables, u.SameButCounts (s.2 u) := by
    intro s hs u
    obtain ⟨r, -, rfl⟩ := List.mem_map.mp hs
    exact u.sameButCounts_refl
  have hcounts : ∀ s ∈ [(reset, Tables.resetCounts), (fileCount, Tables.updateFileCount),
      (failCount, Tables.updateFailCount)], ∀ u : Tables, u.SameButCounts (s.2 u) := by
    intro s hs u
    simp only [List.mem_cons, List.not_mem_nil, or_false] at hs
    rcases hs with rfl | rfl | rfl
    · exact u.sameButCounts_map fun _ => (0, 0)
    · exact u.sameButCounts_map fun r => (u.fileCountOf r.pid, r.failCount)
    · exact u.sameButCounts_map fun r => (r.fileCount, u.failCountOf r.pid)
  have hanalyze : ∀ s ∈ [(analyze, (id : Tables → Tables))], ∀ u : Tables, u.SameButCounts (s.2 u) := by
    intro s hs u
    rw [List.mem_singleton.mp hs]
    exact u.sameButCounts_refl
  obtain ⟨htables, hcommitted⟩ := runUntilFailure_same hindexes htables hcommitted
  obtain ⟨htables, hcommitted⟩ := runUntilFailure_same hcounts htables hcommitted
  exact (runUntilFailure_same hanalyze htables hcommitted).2

/-! ### The run -/

/-- Only the first commit after the last event finds a transaction. -/
private theorem WriterRun.finalized_eq (r : WriterRun) (t : Tables) :
    r.finalized t =
      let w := (r.drained t).commitOpen (if r.async then r.atThreadExit else r.atFinalize)
      { w with db := w.db.maintain r.indexes r.reset r.fileCount r.failCount r.analyze } := by
  have hagain : ((r.drained t).commitOpen r.atThreadExit).commitOpen r.atFinalize =
      (r.drained t).commitOpen r.atThreadExit := by
    rw [Writer.commitOpen, Writer.commitOpen_flag]
    rfl
  rw [finalized]
  cases r.async with
  | true => simp only [if_true, hagain]
  | false => rfl

/-- A run that loses nothing by a BEGIN or COMMIT has committed every accepted event if it counted no error. -/
theorem committed_of_no_errors {t : Tables} (ht : t.Sound) {r : WriterRun} (hr : r.LosesNothing t)
    (hcount : (r.finalized t).writeErrorCount = 0) : t.HasEffects r.accepted (r.finalized t).db.committed := by
  rw [r.finalized_eq] at hcount ⊢
  rw [Writer.commitOpen_writeErrorCount] at hcount
  obtain ⟨-, hd, hprocesses, haccesses, hfailures⟩ := Writer.applyOn_recorded ht hr.events hcount
  rw [← WriterRun.drained] at hd hprocesses haccesses hfailures
  obtain ⟨hcommitted, htables⟩ := Writer.commitOpen_committed hd hr.last
  have hsame : (r.drained t).db.tables.SameButCounts (((r.drained t).commitOpen
      (if r.async then r.atThreadExit else r.atFinalize)).db.maintain r.indexes r.reset r.fileCount r.failCount
        r.analyze).committed := by
    apply Database.maintain_same
    · rw [htables]
      exact Tables.sameButCounts_refl _
    · rw [hcommitted]
      exact Tables.sameButCounts_refl _
  refine ⟨hsame.processes.trans ?_, hsame.accesses.trans haccesses, hsame.failures.trans hfailures⟩
  rw [hprocesses]
  rfl

/-- A BEGIN that fails, and a count that is never taken. -/
def busyBegin : WriterRun where
  events := [(fun s => if s = .begin then .failed else .done, .procStart { pid := 7 }),
    (Disk.healthy, .fileAccess { pid := 7, filename := ['a'] })]
  async := false
  fileCount := .failed

theorem committed_of_no_errors_busyBegin :
    Tables.HasEffects {} [.procStart { pid := 7 }, .fileAccess { pid := 7, filename := ['a'] }]
      (busyBegin.finalized {}).db.committed := by
  have hkept : busyBegin.LosesNothing {} := by
    refine ⟨fun before e after hsplit => ?_, .inr ⟨rfl, rfl⟩⟩
    have hmem : e ∈ busyBegin.events := by
      rw [hsplit]
      exact List.mem_append_right _ List.mem_cons_self
    simp only [busyBegin, List.mem_cons, List.not_mem_nil, or_false] at hmem
    rcases hmem with rfl | rfl
    · exact ⟨fun _ hreply => by simp at hreply, fun _ hreply => by simp at hreply⟩
    · exact ⟨fun _ hreply => by simp [Disk.healthy] at hreply, fun _ hreply => by simp [Disk.healthy] at hreply⟩
  exact committed_of_no_errors (by decide) hkept rfl

/-- The COMMIT of `finalize` finds the disk full. -/
def fullDisk : WriterRun where
  events := [(Disk.healthy, .procStart { pid := 7 }), (Disk.healthy, .fileAccess { pid := 7, filename := ['a'] })]
  async := true
  atThreadExit s := if s = .commit then .rolledBack else .done

theorem fullDisk_loses : (fullDisk.finalized {}).writeErrorCount = 0 ∧
    ¬Tables.HasEffects {} fullDisk.accepted (fullDisk.finalized {}).db.committed := by
  refine ⟨rfl, fun h => ?_⟩
  have haccesses := h.accesses
  revert haccesses
  decide

end Bdtrace
