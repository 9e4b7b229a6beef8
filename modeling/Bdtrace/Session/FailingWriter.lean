import Bdtrace.Session.Writer
import Bdtrace.Store.FailingDisk

/-! The writer on disks that may refuse any statement, or answer it by a rollback. -/
namespace Bdtrace

/-- An event, and what the disk replies while it is applied. -/
abbrev DiskEvent := Disk × QueuedEvent

namespace Database

theorem perform_of_true {d : Disk} {ev : QueuedEvent} {db : Database} (h : (db.perform d ev).2 = true) :
    db.perform d ev = db.perform Disk.healthy ev := by
  cases ev with
  | procStart proc => exact execute_of_true h
  | procExit pid x => exact execute_of_true h
  | fileAccess fa => exact recordUnder_of_true h
  | failedAccess failed => exact recordUnder_of_true h
  | deleteProc pid => exact execute_of_true h

theorem perform_durable {db : Database} (h : db.Durable) (d : Disk) (ev : QueuedEvent) :
    (db.perform d ev).1.Durable := by
  cases ev with
  | procStart proc => exact execute_durable h d _ _
  | procExit pid x => exact execute_durable h d _ _
  | fileAccess fa => exact recordUnder_durable h d _ _ _
  | failedAccess failed => exact recordUnder_durable h d _ _ _
  | deleteProc pid => exact execute_durable h d _ _

end Database

namespace Writer

/-- The writer after the event's own statements, as `maybe_commit` finds it. -/
def beforeCommit (d : Disk) (w : Writer) (ev : QueuedEvent) : Writer :=
  let w := w.ensureTransaction d
  let performed := w.db.perform d ev
  let w := { w with db := performed.1 }.checkWriteResult performed.2
  { w with eventCount := w.eventCount + 1 }

theorem applyEvent_eq (d : Disk) (w : Writer) (ev : QueuedEvent) :
    w.applyEvent d ev = if 50 ≤ w.consecutiveErrors then w else (w.beforeCommit d ev).maybeCommit d := rfl

/-- The events of a run, each on its own disk. -/
def applyOn (w : Writer) (es : List DiskEvent) : Writer := es.foldl (fun w e => w.applyEvent e.1 e.2) w

@[simp] theorem applyOn_snoc (w : Writer) (es : List DiskEvent) (e : DiskEvent) :
    w.applyOn (es ++ [e]) = (w.applyOn es).applyEvent e.1 e.2 := List.foldl_append

@[simp] theorem checkWriteResult_db (ok : Bool) (w : Writer) : (w.checkWriteResult ok).db = w.db := by
  unfold checkWriteResult
  split <;> rfl

theorem beforeCommit_db (d : Disk) (w : Writer) (ev : QueuedEvent) :
    (w.beforeCommit d ev).db = ((w.ensureTransaction d).db.perform d ev).1 := by
  simp only [beforeCommit, checkWriteResult_db]

theorem beforeCommit_errors (d : Disk) (w : Writer) (ev : QueuedEvent) :
    (w.beforeCommit d ev).writeErrorCount =
        w.writeErrorCount + (!((w.ensureTransaction d).db.perform d ev).2).toNat ∧
      (w.beforeCommit d ev).consecutiveErrors =
        if ((w.ensureTransaction d).db.perform d ev).2 then 0 else w.consecutiveErrors + 1 := by
  obtain ⟨-, hcount, hcons⟩ := ensureTransaction_counters d w
  simp only [beforeCommit, checkWriteResult]
  cases ((w.ensureTransaction d).db.perform d ev).2 with
  | true => exact ⟨hcount, rfl⟩
  | false => exact ⟨congrArg (· + 1) hcount, congrArg (· + 1) hcons⟩

@[simp] theorem maybeCommit_writeErrorCount (d : Disk) (w : Writer) :
    (w.maybeCommit d).writeErrorCount = w.writeErrorCount ∧
      (w.maybeCommit d).consecutiveErrors = w.consecutiveErrors := by
  unfold maybeCommit
  split <;> exact ⟨rfl, rfl⟩

/-- Errors in a row are among the errors counted. -/
theorem applyOn_consecutive (t : Tables) (es : List DiskEvent) :
    ((opened t).applyOn es).consecutiveErrors ≤ ((opened t).applyOn es).writeErrorCount := by
  induction es using List.reverseRecOn with
  | nil => exact le_rfl
  | append_singleton es e ih =>
    rw [applyOn_snoc, applyEvent_eq]
    split
    · exact ih
    · obtain ⟨hcount, hcons⟩ := beforeCommit_errors e.1 ((opened t).applyOn es) e.2
      rw [(maybeCommit_writeErrorCount _ _).1, (maybeCommit_writeErrorCount _ _).2, hcount, hcons]
      cases ((((opened t).applyOn es).ensureTransaction e.1).db.perform e.1 e.2).2 with
      | true => exact Nat.zero_le _
      | false => exact Nat.succ_le_succ ih

end Writer
end Bdtrace
