import Bdtrace.Session.AppendedRuns
import Bdtrace.Store.InterruptedUpgrade

/-! What a killed session leaves in the file, and when the upgrade of the viewers repairs its counts. -/
namespace Bdtrace
open Scripts

namespace Tables
variable (t : Tables)

/-- `SELECT COUNT(*) FROM file_accesses WHERE pid = ?`. -/
def fileCountOf (pid : Int) : Nat := (t.fileAccesses.filter fun a => a.pid = pid).length

/-- `SELECT COUNT(*) FROM failed_accesses WHERE pid = ?`. -/
def failCountOf (pid : Int) : Nat := (t.failedAccesses.filter fun a => a.pid = pid).length

/-- The three statements of `populate_counts`. -/
def resetCounts : Tables := { t with processes := t.processes.map fun r => r.withCounts (0, 0) }

def updateFileCount : Tables :=
  { t with processes := t.processes.map fun r => r.withCounts (t.fileCountOf r.pid, r.failCount) }

def updateFailCount : Tables :=
  { t with processes := t.processes.map fun r => r.withCounts (r.fileCount, t.failCountOf r.pid) }

private theorem updates_eq_populateCounts : t.resetCounts.updateFileCount.updateFailCount = t.populateCounts := by
  simp only [populateCounts, resetCounts, updateFileCount, updateFailCount, List.map_map]
  rfl

/-- Every row has the counts of its access rows. -/
def Counted : Prop := ∀ r ∈ t.processes, r.fileCount = t.fileCountOf r.pid ∧ r.failCount = t.failCountOf r.pid

/-- What the upgrade takes for the sign of an interrupted trace. -/
def ShowsInterruption : Prop :=
  TraceFile.columnInt (t.processes.filter fun r => 0 < r.fileCount).length = 0 ∧
    0 < TraceFile.columnInt t.fileAccesses.length

instance : Decidable t.Counted := inferInstanceAs (Decidable (∀ r ∈ t.processes, _))
instance : Decidable t.ShowsInterruption := inferInstanceAs (Decidable (_ ∧ _))

private theorem counts_zero_iff (pid : Int) : (t.fileCountOf pid = 0 ∧ t.failCountOf pid = 0) ↔ pid ∉ t.accessPids := by
  simp only [fileCountOf, failCountOf, accessPids, List.length_eq_zero_iff, List.filter_eq_nil_iff, List.mem_append,
    List.mem_map, not_or, not_exists, not_and, decide_eq_true_eq]

/-- The tables after the first statements of a recount. -/
def recounted : Nat → Tables
  | 0 => t
  | 1 => t.resetCounts
  | 2 => t.resetCounts.updateFileCount
  | _ => t.populateCounts

/-- When the counts are right after so many statements of a recount. In the middle of it only the access rows
decide, and after it nothing is left to do. -/
def RightAfter : Nat → Prop
  | 0 => t.Counted
  | 1 => ∀ r ∈ t.processes, r.pid ∉ t.accessPids
  | 2 => ∀ r ∈ t.processes, t.failCountOf r.pid = 0
  | _ => True

/-- When the upgrade sees an interrupted trace after so many statements of a recount. -/
def ShowsAfter : Nat → Prop
  | 0 => t.ShowsInterruption
  | 1 => 0 < TraceFile.columnInt t.fileAccesses.length
  | _ => TraceFile.columnInt (t.processes.filter fun r => 0 < t.fileCountOf r.pid).length = 0 ∧
    0 < TraceFile.columnInt t.fileAccesses.length

instance : ∀ n, Decidable (t.ShowsAfter n)
  | 0 => inferInstanceAs (Decidable t.ShowsInterruption)
  | 1 => inferInstanceAs (Decidable (_ < _))
  | _ + 2 => inferInstanceAs (Decidable (_ ∧ _))

private theorem counted_map (f : ProcessRecord → Int × Int) :
    Counted { t with processes := t.processes.map fun r => r.withCounts (f r) } ↔
      ∀ r ∈ t.processes, (f r).1 = t.fileCountOf r.pid ∧ (f r).2 = t.failCountOf r.pid := List.forall_mem_map

private theorem shows_map (f : ProcessRecord → Int × Int) :
    ShowsInterruption { t with processes := t.processes.map fun r => r.withCounts (f r) } ↔
      TraceFile.columnInt (t.processes.filter fun r => 0 < (f r).1).length = 0 ∧
        0 < TraceFile.columnInt t.fileAccesses.length := by
  rw [ShowsInterruption, List.filter_map, List.length_map]
  rfl

private theorem recounted_two : t.recounted 2 =
    { t with processes := t.processes.map fun r => r.withCounts (t.fileCountOf r.pid, 0) } := by
  simp only [recounted, updateFileCount, resetCounts, List.map_map]
  rfl

private theorem counted_recounted (n : Nat) : (t.recounted n).Counted ↔ t.RightAfter n := by
  match n with
  | 0 => exact Iff.rfl
  | 1 =>
    refine (t.counted_map fun _ => (0, 0)).trans (forall₂_congr fun r _ => ?_)
    rw [← counts_zero_iff]
    omega
  | 2 =>
    rw [recounted_two]
    refine (t.counted_map fun r => (t.fileCountOf r.pid, 0)).trans (forall₂_congr fun r _ => ?_)
    omega
  | n + 3 =>
    have hright := t.counted_map fun r => (t.fileCountOf r.pid, t.failCountOf r.pid)
    exact iff_of_true (hright.mpr fun _ _ => ⟨rfl, rfl⟩) trivial

private theorem shows_recounted (n : Nat) : (t.recounted n).ShowsInterruption ↔ t.ShowsAfter n := by
  have hfiles : (t.processes.filter fun r => 0 < (t.fileCountOf r.pid : Int)) =
      t.processes.filter fun r => 0 < t.fileCountOf r.pid :=
    List.filter_congr fun r _ => decide_eq_decide.mpr Int.natCast_pos
  match n with
  | 0 => exact Iff.rfl
  | 1 =>
    have hnone : (t.processes.filter fun _ => 0 < (0 : Int)) = [] := List.filter_eq_nil_iff.mpr fun _ _ => by decide
    refine (t.shows_map fun _ => (0, 0)).trans ⟨And.right, fun h => ⟨?_, h⟩⟩
    rw [hnone]
    rfl
  | 2 =>
    rw [recounted_two]
    exact (t.shows_map fun r => (t.fileCountOf r.pid, 0)).trans (hfiles ▸ Iff.rfl)
  | n + 3 => exact (t.shows_map fun r => (t.fileCountOf r.pid, t.failCountOf r.pid)).trans (hfiles ▸ Iff.rfl)

private theorem resetCounts_recounted (n : Nat) : (t.recounted n).resetCounts = t.resetCounts := by
  rcases n with _ | _ | _ | n
  · rfl
  all_goals
    simp only [recounted, populateCounts, updateFileCount, resetCounts, List.map_map]
    rfl

/-- A recount forgets what an earlier one has left. -/
private theorem recounted_recounted (n : Nat) {m : Nat} (hm : 0 < m) : (t.recounted n).recounted m = t.recounted m := by
  have hreset := t.resetCounts_recounted n
  rcases m with _ | _ | _ | m
  · exact absurd hm (Nat.lt_irrefl 0)
  · exact hreset
  · exact congrArg updateFileCount hreset
  · show (t.recounted n).populateCounts = t.populateCounts
    rw [← updates_eq_populateCounts, hreset, updates_eq_populateCounts]

end Tables

namespace TraceFile

private theorem mem_v5_columns (c : ProcessColumn) : c ∈ SchemaVersion.v5.columns := by cases c <;> decide

/-- Tables of version 6 as a file. -/
def ofTables (t : Tables) : TraceFile where
  processes := ⟨SchemaVersion.v5.columns, t.processes, fun _ _ c hc => absurd (mem_v5_columns c) hc⟩
  files := some t.files
  access
    | .file => some (.interned (t.fileAccesses.map fun a => ⟨a.id, a.pid, a.fileId, a.mode, some a.fd, a.timestampUs⟩))
    | .failed =>
      some (.interned (t.failedAccesses.map fun a => ⟨a.id, a.pid, a.fileId, a.mode, some a.errnoVal, a.timestampUs⟩))
  scratch _ := none

/-- The statements of `TraceSession::finalize` after its commit: indexes, counts, statistics. -/
def finishTrace : Script TraceFile :=
  (Script.each (List.replicate 6 maintain)).bind fun _ => populateCounts.bind fun _ => .each [maintain]

/-- Each process row has the counts of its access rows. -/
def CountsRight (s : TraceFile) : Prop :=
  ∀ r ∈ s.processes.rows, r.fileCount = s.countOf .file r.pid ∧ r.failCount = s.countOf .failed r.pid

/-- The upgrade, whatever the storage layer makes of its statements, leaves the right counts if it succeeds. -/
def Repaired (faults : Faults) (left : TraceFile) : Prop :=
  (upgradeSchema.run faults (opened left)).1 = true → CountsRight (upgradeSchema.run faults (opened left)).2.current

/-- The statements of the upgrade's recount that are done before one is refused. They follow six indexes. -/
def recountDone (faults : Faults) : Nat :=
  if faults.statement 6 ≠ .done then 0
  else if faults.statement 7 ≠ .done then 1
  else if faults.statement 8 ≠ .done then 2
  else 3

section Statements
variable (t : Tables)

private theorem count_map {α : Type} (f : α → Int) (l : List α) (x : Int) :
    (l.map f).count x = (l.filter fun a => f a = x).length := by
  rw [List.count, List.countP_map, List.countP_eq_length_filter]
  rfl

@[simp] theorem countOf_file (pid : Int) : (ofTables t).countOf .file pid = t.fileCountOf pid := by
  simp [countOf, ofTables, AccessTable.pids, Tables.fileCountOf, Function.comp_def, count_map]

@[simp] theorem countOf_failed (pid : Int) : (ofTables t).countOf .failed pid = t.failCountOf pid := by
  simp [countOf, ofTables, AccessTable.pids, Tables.failCountOf, Function.comp_def, count_map]

private theorem resetCounts_ofTables : resetCounts (ofTables t) = some (ofTables t.resetCounts) := rfl

private theorem updateCount_file : updateCount .file (ofTables t) = some (ofTables t.updateFileCount) := by
  rw [updateCount, if_pos (show (ofTables t).hasTable .file = true from rfl)]
  simp only [countOf_file]
  rfl

private theorem updateCount_failed : updateCount .failed (ofTables t) = some (ofTables t.updateFailCount) := by
  rw [updateCount, if_pos (show (ofTables t).hasTable .failed = true from rfl)]
  simp only [countOf_failed]
  rfl

private theorem countsRight_ofTables : CountsRight (ofTables t) ↔ t.Counted := by
  simp only [CountsRight, countOf_file, countOf_failed]
  rfl

private theorem unfinished_ofTables : (ofTables t).unfinished = true ↔ t.ShowsInterruption := by
  simp only [unfinished, ofTables, mem_v5_columns, Bool.and_eq_true, decide_eq_true_eq, true_and, AccessTable.pids,
    Option.map_some, Option.getD_some, List.length_map, Tables.ShowsInterruption]
  exact and_congr_left fun _ => decide_eq_true_iff

/-- A refused recount leaves what its first statements have done, and nobody hears of it. -/
private theorem run_recount (faults : Faults) :
    (populateCounts.bind fun _ => .each [maintain]).run faults (opened (ofTables t)) =
      (true, opened (ofTables (t.recounted (
        if faults.statement 0 ≠ .done then 0
        else if faults.statement 1 ≠ .done then 1
        else if faults.statement 2 ≠ .done then 2
        else 3)))) := by
  have hend : ∀ (faults : Faults) (u : Tables), (Script.each [maintain]).run faults (opened (ofTables u)) =
      (true, opened (ofTables u)) := by
    intro faults u
    rw [Script.each, Script.run_exec_opened]
    exact ite_self _
  have hreset : attempt (ofTables t) resetCounts = ofTables (t.recounted 1) := rfl
  have hfile : attempt (ofTables (t.recounted 1)) (updateCount .file) = ofTables (t.recounted 2) := by
    rw [attempt, updateCount_file]
    rfl
  have hfailed : attempt (ofTables (t.recounted 2)) (updateCount .failed) = ofTables (t.recounted 3) := by
    rw [attempt, updateCount_failed]
    exact congrArg ofTables t.updates_eq_populateCounts
  have htable : (ofTables (t.recounted 2)).hasTable .failed = true := rfl
  rw [populateCounts]
  -- one split for each statement of the recount, in the order of the code
  by_cases h0 : faults.statement 0 = .done
  · by_cases h1 : faults.statement 1 = .done
    · by_cases h2 : faults.statement 2 = .done
      all_goals
        simp [Script.all, Script.bind, Script.run_exec_opened, Script.run_look_opened, Faults.tail,
          resetCounts_ofTables,
          updateCount_file, updateCount_failed, hreset, hfile, hfailed, htable, hend, h0, h1, h2]
    · simp [Script.all, Script.bind, Script.run_exec_opened, Faults.tail, resetCounts_ofTables, hreset,
        hend, h0, h1]
  · simp [Script.all, Script.bind, Script.run_exec_opened, hend, h0]
    rfl

private theorem run_upgrade (faults : Faults) : upgradeSchema.run faults (opened (ofTables t)) =
    (true, opened (ofTables (if t.ShowsInterruption then t.recounted (recountDone faults) else t))) := by
  have hrepair : upgradeSchema.run faults (opened (ofTables t)) =
      ((Script.each (List.replicate 6 maintain)).bind fun _ => repairCounts).run faults (opened (ofTables t)) := by
    simp [upgradeSchema, toV2, toV3, toV4, toV5, addColumns, migrateToInterned, Script.bind, Script.run, opened,
      mem_v5_columns, ofTables, hasTable, namedLayout]
  rw [hrepair, Script.run_each_bind (fun f hf => by rw [List.eq_of_mem_replicate hf]; rfl)]
  show repairCounts.run (faults.drop 6) (opened (ofTables t)) = _
  by_cases h : t.ShowsInterruption
  · have hstep : repairCounts.run (faults.drop 6) (opened (ofTables t)) =
        (populateCounts.bind fun _ => .each [maintain]).run (faults.drop 6) (opened (ofTables t)) := by
      simp [repairCounts, Script.run, opened, (unfinished_ofTables t).mpr h]
    rw [hstep, run_recount, if_pos h]
    rfl
  · simp [repairCounts, Script.run, opened, mt (unfinished_ofTables t).mp h, h]

private theorem repaired_ofTables (faults : Faults) : Repaired faults (ofTables t) ↔
    (if t.ShowsInterruption then t.recounted (recountDone faults) else t).Counted := by
  rw [Repaired, run_upgrade]
  exact ⟨fun h => (countsRight_ofTables _).mp (h rfl), fun h _ => (countsRight_ofTables _).mpr h⟩

/-- What an interruption of the last statements leaves: the indexes are six. -/
private theorem interrupted_finishTrace (n : Nat) :
    finishTrace.interrupted n (ofTables t) = ofTables (t.recounted (n - 6)) := by
  match n with
  | 0 | 1 | 2 | 3 | 4 | 5 | 6 | 7 => rfl
  | n + 8 =>
    show (populateCounts.bind fun _ => .each [maintain]).interrupted (n + 2) (ofTables t) = _
    refine (Script.interrupted_exec (resetCounts_ofTables t) _ _).trans ?_
    refine (Script.interrupted_exec (updateCount_file _) _ _).trans ?_
    cases n with
    | zero => rfl
    | succ n =>
      refine (Script.interrupted_look _ _ _).trans ?_
      refine (Script.interrupted_exec (updateCount_failed _) _ _).trans ?_
      rw [Tables.updates_eq_populateCounts]
      rcases n with _ | _ <;> rfl

end Statements

/-- Where a session on a file is interrupted: at a commit of its run, or after some of the statements of
`finalize`. -/
inductive CommitPoint where
  | tracing (acts : List PipelineAct)
  | finalizing (acts : List PipelineAct) (statements : Nat)
  deriving Repr

namespace CommitPoint

/-- The tables that the run has committed: when it is cut off, or once `finalize` has drained the queue. -/
def committed (base : Tables) : CommitPoint → Tables
  | tracing acts => ((Pipeline.opened base).run acts).writer.db.committed
  | finalizing acts _ =>
    let p := (Pipeline.opened base).run acts
    ((p.writer.applyAll p.queue).commitOpen Disk.healthy).db.committed

/-- The file that is left. -/
def left (base : Tables) (point : CommitPoint) : TraceFile :=
  match point with
  | tracing _ => ofTables (point.committed base)
  | finalizing _ statements => finishTrace.interrupted statements (ofTables (point.committed base))

/-- The statements of the recount of `finalize` that are done. They follow six indexes. -/
def recountDone : CommitPoint → Nat
  | tracing _ => 0
  | finalizing _ statements => statements - 6

/-- The last recount decides: that of the upgrade, if it sees an interrupted trace and its first statement is
done, or else that of `finalize`, however far it got. -/
def Repairable (base : Tables) (point : CommitPoint) (faults : Faults) : Prop :=
  let t := point.committed base
  t.RightAfter (
    if t.ShowsAfter point.recountDone ∧ 0 < TraceFile.recountDone faults then TraceFile.recountDone faults
    else point.recountDone)

private theorem left_eq (base : Tables) (point : CommitPoint) :
    point.left base = ofTables ((point.committed base).recounted point.recountDone) := by
  cases point with
  | tracing acts => rfl
  | finalizing acts statements => exact interrupted_finishTrace _ _

end CommitPoint

/-- The upgrade repairs the counts of an interrupted session's file exactly at these points. -/
theorem repaired_iff (base : Tables) (point : CommitPoint) (faults : Faults) :
    Repaired faults (point.left base) ↔ point.Repairable base faults := by
  simp only [CommitPoint.left_eq, repaired_ofTables, Tables.shows_recounted, CommitPoint.Repairable]
  generalize point.committed base = t
  by_cases hshows : t.ShowsAfter point.recountDone
  · rcases Nat.eq_zero_or_pos (recountDone faults) with hnone | hsome
    · simpa [hshows, hnone, Tables.recounted] using t.counted_recounted point.recountDone
    · simpa [hshows, hsome, t.recounted_recounted _ hsome] using t.counted_recounted (recountDone faults)
  · simpa [hshows] using t.counted_recounted point.recountDone

/-- The second build of a file, killed before its counts are taken, is not repaired, since the first one has
counts. Neither is a first build whose only accesses failed, nor one whose recount is refused. -/
theorem second_build_unrepaired :
    ¬ Repaired .healthy ((CommitPoint.finalizing (Pipeline.singleBuild 200 "cc" 9) 0).left Pipeline.firstBuild) ∧
      ¬ Repaired .healthy ((CommitPoint.finalizing [.call (.processStart { pid := 100, ppid := 50 }),
        .call (.failedAccess { pid := 100, filename := "a.h".toList, errnoVal := 2 })] 0).left {}) ∧
      ¬ Repaired ⟨fun n => if n = 7 then .failed else .done, .done⟩
        ((CommitPoint.finalizing (Pipeline.singleBuild 200 "cc" 9) 0).left {}) := by
  refine ⟨?_, ?_, ?_⟩
  all_goals
    refine mt (repaired_ofTables _ _).mp ?_
    decide

end TraceFile
end Bdtrace
