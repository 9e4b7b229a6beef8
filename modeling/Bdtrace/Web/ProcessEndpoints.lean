import Bdtrace.View.DependencyGraph
import Bdtrace.View.RunCompaction

/-! The endpoints that list processes with their times, and when these times agree. -/
namespace Bdtrace
open Std (TreeMap TreeSet)

namespace Tables
variable (t : Tables)

/-- `SELECT ... WHERE ppid NOT IN (SELECT pid FROM processes) ORDER BY start_time_us`. -/
def rootProcesses : List ProcessRecord := t.allProcesses.filter fun r => r.ppid ∉ t.pids

/-- `SELECT ... WHERE ppid = ? ORDER BY start_time_us`. -/
def children (ppid : Int) : List ProcessRecord := t.allProcesses.filter fun r => r.ppid = ppid

/-- `SELECT DISTINCT ppid FROM processes`. -/
def pidsWithChildren : List Int := (t.processes.map (·.ppid)).dedup

end Tables

/-- A process as `write_process_json` writes it. -/
structure ProcessJson where
  record : ProcessRecord
  hasChildren : Bool
  deriving DecidableEq, Repr

def Tables.processJson (t : Tables) (r : ProcessRecord) : ProcessJson := ⟨r, r.pid ∈ t.pidsWithChildren⟩

structure ProcessesAnswer where
  processes : List ProcessJson
  roots : List Int
  childrenMap : Option (TreeMap Int (List Int))

section Handlers
variable (sort : List ProcessRecord → List ProcessRecord) (t : Tables)

/-- `children_map[ppid].push_back(pid)`. -/
def addChild (m : TreeMap Int (List Int)) (r : ProcessRecord) : TreeMap Int (List Int) :=
  m.alter r.ppid fun children => some (children.getD [] ++ [r.pid])

/-- The pids of the records whose parent is not among them. -/
def rootPids (procs : List ProcessRecord) : List Int := (procs.filter fun r => r.ppid ∉ procs.map (·.pid)).map (·.pid)

/-- `GET /api/processes`. -/
def handleProcesses (lazily : Bool) : ProcessesAnswer :=
  if lazily then
    let roots := compactRuns sort t.rootProcesses
    ⟨roots.map t.processJson, roots.map (·.pid), none⟩
  else
    let procs := compactRuns sort t.allProcesses
    ⟨procs.map t.processJson, rootPids procs, some (procs.foldl addChild ∅)⟩

/-- `GET /api/processes/<pid>/children`; the answer to a pid that is not positive is an error. -/
def handleProcessChildren (pid : Int) : Option (List ProcessJson) :=
  if 0 < pid then some ((t.children pid).map t.processJson) else none

structure DfsEntry where
  pid : Int
  depth : Nat
  deriving DecidableEq, Repr

/-- The loop over the stack, whose top is the head of the list. -/
def timelineOrder (children : TreeMap Int (List Int)) : Nat → List DfsEntry → Option (List DfsEntry)
  | _, [] => some []
  | 0, _ :: _ => none
  | fuel + 1, top :: stack =>
    (timelineOrder children fuel ((children.getD top.pid []).map (⟨·, top.depth + 1⟩) ++ stack)).map (top :: ·)

structure TimelineEntry where
  pid : Int
  cmdline : Str
  startTimeUs : Int
  endTimeUs : Int
  exitCode : Int
  depth : Nat
  deriving DecidableEq, Repr

/-- The entries that are long enough, up to the limit, and whether the limit cut any off. -/
def emitTimeline (procMap : TreeMap Int ProcessRecord) (minDurUs limit : Int) :
    Int → List DfsEntry → List TimelineEntry × Bool
  | _, [] => ([], false)
  | emitted, e :: rest =>
    match procMap[e.pid]? with
    | none => emitTimeline procMap minDurUs limit emitted rest
    | some p =>
      if p.endTimeUs ≤ 0 ∨ p.endTimeUs - p.startTimeUs < minDurUs then emitTimeline procMap minDurUs limit emitted rest
      else if limit ≤ emitted then ([], true)
      else
        let out := emitTimeline procMap minDurUs limit (emitted + 1) rest
        (⟨p.pid, p.cmdline, p.startTimeUs, p.endTimeUs, p.exitCode, e.depth⟩ :: out.1, out.2)

structure TimelineAnswer where
  processes : List TimelineEntry
  minTimeUs : Int
  maxTimeUs : Int
  truncated : Bool
  totalCount : Nat
  deriving DecidableEq, Repr

/-- `GET /api/timeline`, with the numbers that the query gives for the duration and the limit. -/
def handleTimeline (fuel : Nat) (minDurUs limit : Int) : Option TimelineAnswer :=
  let limit := if limit ≤ 0 ∨ limit > 100000 then 50000 else limit
  match compactRuns sort t.allProcesses with
  | [] => some ⟨[], 0, 0, false, 0⟩
  | first :: rest =>
    let procs := first :: rest
    let children := procs.foldl addChild ∅
    let procMap := procs.foldl (fun m r => m.insert r.pid r) (∅ : TreeMap Int ProcessRecord)
    (timelineOrder children fuel ((rootPids procs).map (⟨·, 0⟩))).map fun ordered =>
      let out := emitTimeline procMap minDurUs limit 0 ordered
      ⟨out.1, rest.foldl (fun m r => min m r.startTimeUs) first.startTimeUs,
        rest.foldl (fun m r => max m r.endTimeUs) first.endTimeUs, out.2, ordered.length⟩

/-- The start and end times that some endpoint reports for a process. -/
inductive Reports : Int → Int × Int → Prop
  | roots {p : ProcessJson} (h : p ∈ (handleProcesses sort t true).processes) :
    Reports p.record.pid (p.record.startTimeUs, p.record.endTimeUs)
  | all {p : ProcessJson} (h : p ∈ (handleProcesses sort t false).processes) :
    Reports p.record.pid (p.record.startTimeUs, p.record.endTimeUs)
  | children {answer : List ProcessJson} {p : ProcessJson}
    (hanswer : handleProcessChildren t p.record.ppid = some answer)
      (h : p ∈ answer) : Reports p.record.pid (p.record.startTimeUs, p.record.endTimeUs)
  | timeline {fuel : Nat} {minDurUs limit : Int} {answer : TimelineAnswer} {e : TimelineEntry}
      (hanswer : handleTimeline sort t fuel minDurUs limit = some answer) (h : e ∈ answer.processes) :
    Reports e.pid (e.startTimeUs, e.endTimeUs)

/-- Each process has the same times wherever it is listed. -/
def TimesAgree : Prop := ∀ pid x y, Reports sort t pid x → Reports sort t pid y → x = y

end Handlers

/-! ### What is reported -/

section Proofs
variable {sort : List ProcessRecord → List ProcessRecord} {t : Tables}

def ProcessRecord.times (r : ProcessRecord) : Int × Int := (r.startTimeUs, r.endTimeUs)

theorem mem_allProcesses (r : ProcessRecord) : r ∈ t.allProcesses ↔ r ∈ t.processes :=
  (List.perm_insertionSort _ _).mem_iff

theorem allProcesses_nodup (hk : t.pids.Nodup) : (t.allProcesses.map (·.pid)).Nodup :=
  ((List.perm_insertionSort _ _).map _).nodup_iff.mpr hk

theorem rootProcesses_nodup (hk : t.pids.Nodup) : (t.rootProcesses.map (·.pid)).Nodup :=
  (allProcesses_nodup hk).sublist (List.filter_sublist.map _)

theorem mem_rootProcesses (r : ProcessRecord) : r ∈ t.rootProcesses ↔ r ∈ t.processes ∧ r.ppid ∉ t.pids := by
  simp [Tables.rootProcesses, mem_allProcesses]

/-- The timeline shows records that are in the list it is made of. -/
private theorem mem_emitTimeline {procMap : TreeMap Int ProcessRecord} {minDurUs limit emitted : Int}
    {ordered : List DfsEntry}
    {e : TimelineEntry} (h : e ∈ (emitTimeline procMap minDurUs limit emitted ordered).1) :
    ∃ (pid : Int) (p : ProcessRecord), procMap[pid]? = some p ∧ e.pid = p.pid ∧
      (e.startTimeUs, e.endTimeUs) = p.times := by
  induction ordered generalizing emitted with
  | nil => exact absurd h List.not_mem_nil
  | cons d rest ih =>
    rw [emitTimeline] at h
    split at h
    · exact ih h
    · rename_i p hp
      split at h
      · exact ih h
      · split at h
        · exact absurd h List.not_mem_nil
        · rcases List.mem_cons.mp h with rfl | h
          · exact ⟨d.pid, p, hp, rfl, rfl⟩
          · exact ih h

theorem mem_of_foldl_insert (procs : List ProcessRecord) {m : TreeMap Int ProcessRecord} {pid : Int} {p : ProcessRecord}
    (h : (procs.foldl (fun m r => m.insert r.pid r) m)[pid]? = some p) : (p ∈ procs ∧ p.pid = pid) ∨
      m[pid]? = some p := by
  induction procs generalizing m with
  | nil => exact .inr h
  | cons r rest ih =>
    rcases ih h with ⟨hmem, hpid⟩ | hm
    · exact .inl ⟨List.mem_cons_of_mem _ hmem, hpid⟩
    · rw [Std.TreeMap.getElem?_insert] at hm
      split at hm
      · rename_i hpid
        obtain rfl := Option.some.inj hm
        exact .inl ⟨List.mem_cons_self, compare_eq_iff_eq.mp hpid⟩
      · exact .inr hm

private theorem mem_timeline {fuel : Nat} {minDurUs limit : Int} {answer : TimelineAnswer} {e : TimelineEntry}
    (hanswer : handleTimeline sort t fuel minDurUs limit = some answer) (h : e ∈ answer.processes) :
    ∃ p ∈ compactRuns sort t.allProcesses, e.pid = p.pid ∧ (e.startTimeUs, e.endTimeUs) = p.times := by
  rw [handleTimeline] at hanswer
  split at hanswer
  · obtain rfl := Option.some.inj hanswer
    exact absurd h List.not_mem_nil
  · rename_i first rest hprocs
    obtain ⟨ordered, -, rfl⟩ := Option.map_eq_some_iff.mp hanswer
    obtain ⟨pid, p, hp, hpid, htimes⟩ := mem_emitTimeline h
    rcases mem_of_foldl_insert _ hp with ⟨hmem, -⟩ | hm
    · exact ⟨p, hprocs ▸ hmem, hpid, htimes⟩
    · simp at hm

/-- What each endpoint subtracts from the times of a row. -/
private theorem reports_iff (hsort : SortsByStart sort) (hk : t.pids.Nodup) {pid : Int} {x : Int × Int}
    (h : Reports sort t pid x) :
    ∃ r ∈ t.processes, r.pid = pid ∧
      (x = (r.shiftBy (idleBefore (sort t.allProcesses) r.pid)).times ∨
        (r.ppid ∉ t.pids ∧ x = (r.shiftBy (idleBefore (sort t.rootProcesses) r.pid)).times) ∨
        (0 < r.ppid ∧ x = r.times)) := by
  cases h with
  | roots h =>
    simp only [handleProcesses, if_true, compactRuns_eq hsort (rootProcesses_nodup hk), List.mem_map] at h
    obtain ⟨_, ⟨r, hr, rfl⟩, rfl⟩ := h
    obtain ⟨hmem, hroot⟩ := (mem_rootProcesses r).mp hr
    exact ⟨r, hmem, rfl, .inr (.inl ⟨hroot, rfl⟩)⟩
  | all h =>
    simp only [handleProcesses, Bool.false_eq_true, if_false, compactRuns_eq hsort (allProcesses_nodup hk),
      List.mem_map] at h
    obtain ⟨_, ⟨r, hr, rfl⟩, rfl⟩ := h
    exact ⟨r, (mem_allProcesses r).mp hr, rfl, .inl rfl⟩
  | children hanswer h =>
    rw [handleProcessChildren, Option.ite_none_right_eq_some] at hanswer
    obtain ⟨hpos, heq⟩ := hanswer
    obtain rfl := Option.some.inj heq
    obtain ⟨r, hr, rfl⟩ := List.mem_map.mp h
    exact ⟨r, (mem_allProcesses r).mp (List.mem_of_mem_filter hr), rfl, .inr (.inr ⟨hpos, rfl⟩)⟩
  | timeline hanswer h =>
    obtain ⟨p, hp, hpid, htimes⟩ := mem_timeline hanswer h
    rw [compactRuns_eq hsort (allProcesses_nodup hk)] at hp
    obtain ⟨r, hr, rfl⟩ := List.mem_map.mp hp
    exact ⟨r, (mem_allProcesses r).mp hr, hpid.symm, .inl htimes⟩

/-- The times agree exactly when no process with a positive parent pid has idle time before it, and each root has
the same idle time before it among the roots and among all processes. -/
theorem timesAgree_iff (hsort : SortsByStart sort) (t : Tables) (hk : t.pids.Nodup) :
    TimesAgree sort t ↔
      (∀ r ∈ t.processes, 0 < r.ppid → idleBefore (sort t.allProcesses) r.pid = 0) ∧
      ∀ r ∈ t.processes, r.ppid ∉ t.pids →
        idleBefore (sort t.rootProcesses) r.pid = idleBefore (sort t.allProcesses) r.pid := by
  constructor
  · intro h
    have hall : ∀ r ∈ t.processes, Reports sort t r.pid (r.shiftBy (idleBefore (sort t.allProcesses) r.pid)).times := by
      intro r hr
      refine @Reports.all sort t (t.processJson (r.shiftBy (idleBefore (sort t.allProcesses) r.pid))) ?_
      simp only [handleProcesses, Bool.false_eq_true, if_false,
        compactRuns_eq hsort (allProcesses_nodup hk), List.map_map]
      exact List.mem_map.mpr ⟨r, (mem_allProcesses r).mpr hr, rfl⟩
    refine ⟨fun r hr hpos => ?_, fun r hr hroot => ?_⟩
    · have hraw : Reports sort t r.pid r.times := by
        refine @Reports.children sort t _ (t.processJson r) (if_pos hpos) (List.mem_map_of_mem ?_)
        exact List.mem_filter.mpr ⟨(mem_allProcesses r).mpr hr, decide_eq_true rfl⟩
      have hstart := (Prod.mk.inj (h _ _ _ (hall r hr) hraw)).1
      simp only [ProcessRecord.shiftBy] at hstart
      omega
    · have hlazy : Reports sort t r.pid (r.shiftBy (idleBefore (sort t.rootProcesses) r.pid)).times := by
        refine @Reports.roots sort t (t.processJson (r.shiftBy (idleBefore (sort t.rootProcesses) r.pid))) ?_
        simp only [handleProcesses, if_true, compactRuns_eq hsort (rootProcesses_nodup hk), List.map_map]
        exact List.mem_map.mpr ⟨r, (mem_rootProcesses r).mpr ⟨hr, hroot⟩, rfl⟩
      have hstart := (Prod.mk.inj (h _ _ _ (hall r hr) hlazy)).1
      simp only [ProcessRecord.shiftBy] at hstart
      omega
  · rintro ⟨hchildren, hroots⟩ pid x y hx hy
    have hall : ∀ z, Reports sort t pid z → ∃ r ∈ t.processes, r.pid = pid ∧
        z = (r.shiftBy (idleBefore (sort t.allProcesses) r.pid)).times := by
      intro z hz
      obtain ⟨r, hr, hpid, hz | ⟨hroot, hz⟩ | ⟨hpos, hz⟩⟩ := reports_iff hsort hk hz
      · exact ⟨r, hr, hpid, hz⟩
      · exact ⟨r, hr, hpid, by rw [hz, hroots r hr hroot]⟩
      · exact ⟨r, hr, hpid, by rw [hz, hchildren r hr hpos, r.shiftBy_zero]⟩
    obtain ⟨r, hr, hpid, rfl⟩ := hall x hx
    obtain ⟨r', hr', hpid', rfl⟩ := hall y hy
    rw [List.inj_on_of_nodup_map hk hr hr' (hpid.trans hpid'.symm)]

end Proofs

/-- One build with a child. -/
private def oneBuild : Tables where
  processes := [{ pid := 100, ppid := 50, startTimeUs := 10, endTimeUs := 90 },
    { pid := 101, ppid := 100, startTimeUs := 20, endTimeUs := 80 }]

theorem oneBuild_agrees : TimesAgree stableSort oneBuild :=
  (timesAgree_iff stableSort_sorts oneBuild (by decide)).mpr (by decide)

/-- A second build appended five seconds later. -/
private def twoBuilds : Tables where
  processes := oneBuild.processes ++ [{ pid := 200, ppid := 50, startTimeUs := 5000000, endTimeUs := 5000090 },
    { pid := 201, ppid := 200, startTimeUs := 5000020, endTimeUs := 5000080 }]

/-- Its child is shifted in the full list but not among the children of its parent. -/
theorem twoBuilds_disagree : twoBuilds.pids.Nodup ∧ ¬ TimesAgree stableSort twoBuilds := by
  refine ⟨by decide, fun h => ?_⟩
  have hall := @Reports.all stableSort twoBuilds
    ⟨{ pid := 201, ppid := 200, startTimeUs := 110, endTimeUs := 170 }, false⟩ (by decide)
  have hchildren := @Reports.children stableSort twoBuilds _
    ⟨{ pid := 201, ppid := 200, startTimeUs := 5000020, endTimeUs := 5000080 }, false⟩ rfl (by decide)
  exact absurd (h _ _ _ hall hchildren) (by decide)

end Bdtrace
