import Bdtrace.General.StoppableLoops
import Bdtrace.View.CommandName
import Bdtrace.View.Hotspots
import Bdtrace.View.ParallelBuckets

/-! The reports that divide by the span of a trace or by what they derive from it. Times are 64-bit, and a zero divisor
stops the program. -/
namespace Bdtrace
open Std (TreeMap TreeSet)
open StoppableLoops

/-- The quotient of two integers; `none` is the trap on a divisor of zero. -/
def divide (a b : Int) : Option Int := if b = 0 then none else some (a.tdiv b)

/-- The quotient of two floating-point numbers, before it is rounded. -/
def ratio (a b : Int) : Option Rat := if b = 0 then none else some (a / b)

def ProcessRecord.durationUs (r : ProcessRecord) : Int := int64 (r.endTimeUs - r.startTimeUs)

/-- `total_us`. -/
def totalUs (procs : List ProcessRecord) : Int := int64 (spanUs procs)

/-! ### The timeline -/

structure TimelineLine where
  label : Str
  startCol : Int
  endCol : Int
  durUs : Int
  deriving DecidableEq, Repr

/-- One line of the chart, which is 50 columns wide beside labels of 24 characters. -/
def timelineLine (minTime total : Int) (depthCache : TreeMap Int Int) (r : ProcessRecord) : Option TimelineLine := do
  let label := List.replicate (2 * depthCache.getD r.pid 0).toNat ' ' ++ cmdName r.cmdline
  let startCol ← divide (int64 (int64 (r.startTimeUs - minTime) * 50)) total
  let endCol ← divide (int64 (int64 (r.endTimeUs - minTime) * 50)) total
  let endCol := if int32 endCol ≤ int32 startCol then int32 startCol + 1 else int32 endCol
  some ⟨label.take 24, int32 startCol, if endCol > 50 then 50 else endCol, r.durationUs⟩

/-- `cmd_timeline` with the depths that it has found; `sort` is `std::sort` by the start time. -/
def cmdTimeline (sort : List ProcessRecord → List ProcessRecord) (depthCache : TreeMap Int Int)
    (procs : List ProcessRecord)
    (minDurationMs : Int) : Option (List TimelineLine) :=
  if totalUs procs ≤ 0 then some []
  else (sort (procs.filter fun r => 0 < r.endTimeUs ∧ minDurationMs * 1000 ≤ r.durationUs)).mapM
    (timelineLine (spanStart procs) (totalUs procs) depthCache)

/-! ### The parallelism analysis -/

def bucketing64 (total : Int) : Option (Int × Int) := do
  let seconds ← divide total 1000000
  let numBuckets := int32 (int32 seconds + 1)
  if numBuckets > 3600 then (divide total 3600).map fun width => (3600, width + 1) else some (numBuckets, 1000000)

def countProcess64 (minTime bucketUs numBuckets : Int) (buckets : List Int) (r : ProcessRecord) : Option (List Int) :=
  if r.endTimeUs ≤ 0 then some buckets
  else do
    let startB ← divide (int64 (r.startTimeUs - minTime)) bucketUs
    let endB ← divide (int64 (r.endTimeUs - minTime)) bucketUs
    some (bump (if int32 startB < 0 then 0 else int32 startB)
      (if int32 endB ≥ numBuckets then numBuckets - 1 else int32 endB) buckets)

/-- `analyzeParallelism` with the divisions as they are made. -/
def analyzeParallelism64 (procs : List ProcessRecord) : Option ParallelismResult :=
  if procs = [] then some .noProcesses
  else if totalUs procs ≤ 0 then some .noSpan
  else do
    let layout ← bucketing64 (totalUs procs)
    if layout.1 < 0 then some .lengthError
    else do
      let buckets ← procs.foldlM (countProcess64 (spanStart procs) layout.2 layout.1) (List.replicate layout.1.toNat 0)
      some (.figures ⟨totalUs procs, layout.2, buckets, buckets.foldl max 0⟩)

structure ParallelChart where
  figures : Parallelism
  average : Rat
  /-- Each bucket that is shown with its index and the length of its bar. -/
  bars : List (Nat × Int × Int)
  deriving DecidableEq

/-- The average over the buckets in which something runs. -/
def averageParallel (buckets : List Int) : Option Rat :=
  let active := buckets.filter (0 < ·)
  if 0 < active.length then ratio active.sum active.length else some 0

/-- The lines of the histogram; empty buckets are left out but for the first and the last. -/
def histogram (buckets : List Int) (maxVal : Int) : Option (List (Nat × Int × Int)) :=
  (buckets.zipIdx.filter fun b => ¬ (b.1 = 0 ∧ 0 < b.2 ∧ b.2 + 1 < buckets.length)).mapM fun b =>
    (divide (int32 (b.1 * 50)) maxVal).map fun barLen => (b.2, b.1, barLen)

def parallelChart (p : Parallelism) : Option ParallelChart := do
  let average ← averageParallel p.buckets
  let bars ← histogram p.buckets (if p.maxParallel > 0 then p.maxParallel else 1)
  some ⟨p, average, bars⟩

/-- `cmd_parallel`, with no chart where it ends early. -/
def cmdParallelChart (procs : List ProcessRecord) : Option (Option ParallelChart) := do
  let result ← analyzeParallelism64 procs
  match result with
  | .figures p => (parallelChart p).map some
  | _ => some none

/-- The analysis of `handle_parallelism`, on the times without the idle gaps. -/
def handleParallelism64 (sort : List ProcessRecord → List ProcessRecord) (procs : List ProcessRecord) :
    Option ParallelismResult := analyzeParallelism64 (compactRuns sort procs)

/-! ### The diagnosis -/

/-- An issue, with the values that its text is made of. -/
inductive Issue where
  | serial (count ppid : Int) (cmdline : Str) (savingsUs : Int)
  | slow (durUs percent pid : Int) (cmdline : Str)
  | hotfile (files : Nat) (worst : Str) (processes : Nat)
  | failures (count : Int)
  deriving DecidableEq, Repr

def byParent (procs : List ProcessRecord) : TreeMap Int (List ProcessRecord) :=
  procs.foldl (fun m r => m.alter r.ppid fun siblings => some (siblings.getD [] ++ [r])) ∅

/-- How many siblings start when the one before them has ended, and how long they take. -/
def serialSiblings (siblings : List ProcessRecord) : Int × Int :=
  (siblings.zip siblings.tail).foldl (fun serial pair =>
    if pair.2.startTimeUs ≥ pair.1.endTimeUs then (serial.1 + 1, int64 (serial.2 + pair.2.durationUs))
    else serial) (0, 0)

/-- The parents of three or more siblings in a row that take over a tenth of the build. -/
def serialParents (sort : List ProcessRecord → List ProcessRecord) (procs : List ProcessRecord) :
    List (Int × Int × Int) :=
  (byParent procs).toList.filterMap fun e =>
    let serial := serialSiblings (sort e.2)
    if 2 ≤ e.2.length ∧ serial.1 ≥ 3 ∧ serial.2 > (totalUs procs).tdiv 10 then some (e.1, serial) else none

/-- The five longest processes, as far as they take a quarter of the build; `sort` is `std::sort` with
`cmp_duration_desc`. -/
def slowProcesses (sort : List ProcessRecord → List ProcessRecord) (procs : List ProcessRecord) : Option (List Issue) :=
  (((sort procs).take 5).filter fun r => r.durationUs ≥ (totalUs procs).tdiv 4).mapM fun r =>
    (divide (int64 (r.durationUs * 100)) (totalUs procs)).map fun percent =>
      .slow r.durationUs (int32 percent) r.pid r.cmdline

/-- The files with more than ten readers, in the order of their names. -/
def hotFiles (allFa : List Tables.StoredAccess) : List (Str × Nat) :=
  let filePids : TreeMap Str (TreeSet Int) := allFa.foldl (fun m a =>
    if isInputMode a.mode then m.alter (a.path.getD []) fun pids => some ((pids.getD ∅).insert a.pid) else m) ∅
  (filePids.toList.map fun e => (e.1, e.2.size)).filter fun e => e.2 > 10

namespace Tables
variable (t : Tables)

/-- `Database::get_process`. -/
def getProcess (pid : Int) : Option ProcessRecord := t.processes.find? fun r => r.pid = pid

def getFailedAccessCount : Int := int32 t.failedAccesses.length

/-- `Database::get_hotfile_stats`; `orderBy` orders the rows by their number of processes. -/
def getHotfileStats (orderBy : List (Str × Nat) → List (Str × Nat)) (minProcs : Nat) : Nat × Str × Nat :=
  let read := t.joined.filter fun r => r.row.mode ∈ [0, 2, 3, 4, 5, 9]
  let groups := (read.map (·.row.fileId)).dedup.map fun fid => statRow (read.filter fun r => r.row.fileId = fid)
  let rows := orderBy ((groups.map fun g => (g.filename, g.processCount)).filter fun row => row.2 > minProcs)
  (rows.length, rows.head?.getD ([], 0))

/-- The serial executions whose parent is found. -/
def serialIssues (parents : List (Int × Int × Int)) : List Issue :=
  parents.filterMap fun e => (t.getProcess e.1).map fun parent => .serial e.2.1 e.1 parent.cmdline e.2.2

def failureIssues : List Issue := if t.getFailedAccessCount > 100 then [.failures t.getFailedAccessCount] else []

end Tables

def hotfileIssues (stats : Nat × Str × Nat) : List Issue :=
  if stats.1 > 0 then [.hotfile stats.1 stats.2.1 stats.2.2] else []

/-- What `cmd_diagnose` prints for a trace with processes. -/
structure Diagnosis where
  totalUs : Int
  issues : List Issue
  issueCount : Nat
  deriving DecidableEq, Repr

section Reports
variable (sort sortDesc : List ProcessRecord → List ProcessRecord) (t : Tables)

/-- `cmd_diagnose`. A serial execution counts as an issue even where its parent is not found, the slow processes
together as one. -/
def cmdDiagnose : Option (Option Diagnosis) :=
  let procs := t.allProcesses
  if procs = [] then some none
  else do
    let parents := serialParents sort procs
    let slow ← slowProcesses sortDesc procs
    let hot := hotFiles t.getAllFileAccesses
    let worst := hot.foldl (fun worst e => if e.2 > worst.2 then e else worst) ([], 0)
    let others := hotfileIssues (hot.length, worst) ++ t.failureIssues
    some (some ⟨totalUs procs, t.serialIssues parents ++ slow ++ others,
      parents.length + (if slow = [] then 0 else 1) + others.length⟩)

/-- The total time and the issues of `handle_diagnostics`. -/
def handleDiagnostics (orderBy : List (Str × Nat) → List (Str × Nat)) : Option (Option Int × List Issue) :=
  let procs := t.allProcesses
  if procs = [] then some (none, [])
  else do
    let slow ← slowProcesses sortDesc procs
    some (some (totalUs procs), t.serialIssues (serialParents sort procs) ++ slow ++
      hotfileIssues (t.getHotfileStats orderBy 10) ++ t.failureIssues)

/-- No report on the processes of the trace divides by zero. -/
structure ReportsDivide : Prop where
  timeline : ∀ depthCache minDurationMs, (cmdTimeline sort depthCache t.allProcesses minDurationMs).isSome
  parallel : (cmdParallelChart t.allProcesses).isSome
  diagnose : (cmdDiagnose sort sortDesc t).isSome
  webParallelism : (handleParallelism64 sort t.allProcesses).isSome
  webDiagnostics : ∀ orderBy, (handleDiagnostics sort sortDesc t orderBy).isSome

end Reports

/-- What `std::sort` with `cmp_duration_desc` promises. -/
structure SortsByDuration (sort : List ProcessRecord → List ProcessRecord) : Prop where
  perm : ∀ procs, (sort procs).Perm procs
  sorted : ∀ procs, (sort procs).Pairwise fun a b => b.durationUs ≤ a.durationUs

/-- Both times are values of an `int64_t`. -/
def ProcessRecord.Fits64 (r : ProcessRecord) : Prop :=
  (-2 ^ 63 ≤ r.startTimeUs ∧ r.startTimeUs < 2 ^ 63) ∧ -2 ^ 63 ≤ r.endTimeUs ∧ r.endTimeUs < 2 ^ 63

instance (r : ProcessRecord) : Decidable r.Fits64 := inferInstanceAs (Decidable ((_ ∧ _) ∧ _ ∧ _))

/-- The latest end is the earliest start, and some process does not end before it starts; a difference under -2^63
wraps to a positive one. -/
def WithoutSpan (procs : List ProcessRecord) : Prop :=
  (∃ time, (∀ r ∈ procs, time ≤ r.startTimeUs ∧ r.endTimeUs ≤ time) ∧ (∃ r ∈ procs, r.startTimeUs = time) ∧
    ∃ r ∈ procs, r.endTimeUs = time) ∧
  ∃ r ∈ procs, r.startTimeUs = r.endTimeUs ∨ r.endTimeUs - r.startTimeUs < -2 ^ 63

/-! ### Guarded divisions -/

private theorem divide_eq {a b : Int} (h : b ≠ 0) : divide a b = some (a.tdiv b) := if_neg h

private theorem isSome_divide {a b : Int} : (divide a b).isSome ↔ b ≠ 0 := by
  unfold divide
  split
  · rename_i h
    simp [h]
  · rename_i h
    simp [h]

/-- The guard of the timeline is enough for its columns. -/
private theorem isSome_cmdTimeline (sort : List ProcessRecord → List ProcessRecord) (depthCache : TreeMap Int Int)
    (procs : List ProcessRecord) (minDurationMs : Int) : (cmdTimeline sort depthCache procs minDurationMs).isSome := by
  unfold cmdTimeline
  split
  · rfl
  · rename_i hspan
    refine isSome_mapM.mpr fun r _ => ?_
    have hne : totalUs procs ≠ 0 := by omega
    rw [timelineLine, divide_eq hne, divide_eq hne]
    rfl

private theorem bucketing64_eq (total : Int) : bucketing64 total = some (bucketing total) := by
  unfold bucketing64 bucketing
  rw [divide_eq (by decide), divide_eq (by decide)]
  simp only [Option.bind_eq_bind, Option.bind_some, Option.map_some]
  split <;> rfl

/-- The width of the buckets is positive whatever their number wraps to. -/
private theorem bucketing_width {total : Int} (h : 0 < total) : 0 < (bucketing total).2 := by
  have hwide : total.tdiv 3600 = total / 3600 := Int.tdiv_eq_ediv_of_nonneg h.le
  simp only [bucketing, hwide]
  split
  · simp only
    omega
  · simp only
    omega

private theorem isSome_analyzeParallelism64 (procs : List ProcessRecord) : (analyzeParallelism64 procs).isSome := by
  unfold analyzeParallelism64
  split
  · rfl
  · split
    · rfl
    · rename_i hspan
      have hwidth := bucketing_width (not_le.mp hspan)
      simp only [bucketing64_eq, Option.bind_eq_bind, Option.bind_some]
      split
      · rfl
      · have hloop := isSome_foldlM (f := countProcess64 (spanStart procs) (bucketing (totalUs procs)).2
          (bucketing (totalUs procs)).1) (l := procs) (fun buckets r _ => by
            unfold countProcess64
            split
            · rfl
            · rw [divide_eq hwidth.ne', divide_eq hwidth.ne']
              rfl) (List.replicate (bucketing (totalUs procs)).1.toNat 0)
        obtain ⟨buckets, hbuckets⟩ := Option.isSome_iff_exists.mp hloop
        rw [hbuckets]
        rfl

private theorem isSome_averageParallel (buckets : List Int) : (averageParallel buckets).isSome := by
  unfold averageParallel
  simp only
  split
  · rename_i hactive
    rw [ratio, if_neg (by omega)]
    rfl
  · rfl

private theorem isSome_histogram (buckets : List Int) {maxVal : Int} (h : maxVal ≠ 0) :
    (histogram buckets maxVal).isSome := by
  refine isSome_mapM.mpr fun b _ => ?_
  rw [Option.isSome_map]
  exact isSome_divide.mpr h

private theorem isSome_parallelChart (p : Parallelism) : (parallelChart p).isSome := by
  have hmax : (if p.maxParallel > 0 then p.maxParallel else 1) ≠ 0 := by
    split <;> omega
  obtain ⟨q, hq⟩ := Option.isSome_iff_exists.mp (isSome_averageParallel p.buckets)
  obtain ⟨bars, hbars⟩ := Option.isSome_iff_exists.mp (isSome_histogram p.buckets hmax)
  rw [parallelChart, hq, hbars]
  rfl

private theorem isSome_cmdParallelChart (procs : List ProcessRecord) : (cmdParallelChart procs).isSome := by
  obtain ⟨result, hresult⟩ := Option.isSome_iff_exists.mp (isSome_analyzeParallelism64 procs)
  rw [cmdParallelChart, hresult]
  cases result with
  | figures p => exact (Option.isSome_map).trans (isSome_parallelChart p)
  | noProcesses => rfl
  | noSpan => rfl
  | lengthError => rfl

/-! ### The unguarded division -/

/-- A difference of two 64-bit values is zero exactly when it wraps to zero. -/
private theorem int64_eq_zero {x : Int} (h0 : -2 ^ 64 < x) (h1 : x < 2 ^ 64) : int64 x = 0 ↔ x = 0 := by
  unfold int64
  rw [Int.bmod_def]
  split <;> omega

private theorem durationUs_nonneg {r : ProcessRecord} (hfit : r.Fits64) (hle : r.endTimeUs ≤ r.startTimeUs) :
    0 ≤ r.durationUs ↔ r.startTimeUs = r.endTimeUs ∨ r.endTimeUs - r.startTimeUs < -2 ^ 63 := by
  obtain ⟨⟨hs0, hs1⟩, he0, he1⟩ := hfit
  rw [ProcessRecord.durationUs, int64, Int.bmod_def]
  split <;> omega

private theorem totalUs_eq_zero {procs : List ProcessRecord} (hne : procs ≠ []) (hfit : ∀ r ∈ procs, r.Fits64) :
    totalUs procs = 0 ↔ ∃ time, (∀ r ∈ procs, time ≤ r.startTimeUs ∧ r.endTimeUs ≤ time) ∧
      (∃ r ∈ procs, r.startTimeUs = time) ∧ ∃ r ∈ procs, r.endTimeUs = time := by
  obtain ⟨⟨a, ha, hstart⟩, ⟨b, hb, hend⟩⟩ := span_attained hne
  obtain ⟨⟨hs0, hs1⟩, -, -⟩ := hfit a ha
  obtain ⟨-, he0, he1⟩ := hfit b hb
  rw [totalUs, int64_eq_zero (by omega) (by omega)]
  constructor
  · intro hzero
    rw [hzero, Int.add_zero] at hend
    refine ⟨spanStart procs, fun r hr => ?_, ⟨a, ha, hstart⟩, ⟨b, hb, hend⟩⟩
    have := spanUs_bounds hr
    omega
  · rintro ⟨time, hall, ⟨c, hc, hcs⟩, ⟨d, hd, hde⟩⟩
    have h1 := hall a ha
    have h2 := hall b hb
    have h3 := spanUs_bounds hc
    have h4 := spanUs_bounds hd
    omega

/-- A trace without a span makes every process slow that does not take a negative time, and the first of them is divided
by zero. -/
private theorem isSome_slowProcesses {sort : List ProcessRecord → List ProcessRecord} (hsort : SortsByDuration sort)
    (procs : List ProcessRecord) :
    (slowProcesses sort procs).isSome ↔ totalUs procs ≠ 0 ∨ ∀ r ∈ procs, ¬ 0 ≤ r.durationUs := by
  simp only [slowProcesses, isSome_mapM, Option.isSome_map, isSome_divide, List.mem_filter, decide_eq_true_eq]
  constructor
  · intro h
    by_cases hzero : totalUs procs = 0
    · refine .inr fun r hr hdur => ?_
      have hmem : r ∈ sort procs := (hsort.perm procs).mem_iff.mpr hr
      cases hsorted : sort procs with
      | nil => exact absurd (hsorted ▸ hmem) List.not_mem_nil
      | cons longest rest =>
        have hlongest : r.durationUs ≤ longest.durationUs := by
          have hpair := hsort.sorted procs
          rw [hsorted] at hmem hpair
          rcases List.mem_cons.mp hmem with rfl | hrest
          · exact le_rfl
          · exact (List.pairwise_cons.mp hpair).1 r hrest
        refine h longest ⟨?_, ?_⟩ hzero
        · rw [hsorted]
          exact List.mem_cons_self
        · rw [hzero]
          exact hdur.trans hlongest
    · exact .inl hzero
  · rintro (hspan | hnegative) r ⟨hr, hdur⟩
    · exact hspan
    · intro hzero
      rw [hzero] at hdur
      exact hnegative r ((hsort.perm procs).mem_iff.mp (List.mem_of_mem_take hr)) hdur

private theorem isSome_slowProcesses_iff {sort : List ProcessRecord → List ProcessRecord} (hsort : SortsByDuration sort)
    {procs : List ProcessRecord} (hne : procs ≠ []) (hfit : ∀ r ∈ procs, r.Fits64) :
    (slowProcesses sort procs).isSome ↔ ¬ WithoutSpan procs := by
  rw [isSome_slowProcesses hsort, WithoutSpan, ← totalUs_eq_zero hne hfit, not_and_or]
  by_cases hzero : totalUs procs = 0
  · obtain ⟨time, hall, -⟩ := (totalUs_eq_zero hne hfit).mp hzero
    have hdur : ∀ r ∈ procs, (0 ≤ r.durationUs ↔ r.startTimeUs = r.endTimeUs ∨ r.endTimeUs - r.startTimeUs < -2 ^ 63) :=
      fun r hr => durationUs_nonneg (hfit r hr) ((hall r hr).2.trans (hall r hr).1)
    rw [not_exists]
    simp only [not_and]
    exact or_congr Iff.rfl (forall₂_congr fun r hr => not_congr (hdur r hr))
  · exact iff_of_true (.inl hzero) (.inl hzero)

section Reports
variable {sort sortDesc : List ProcessRecord → List ProcessRecord} {t : Tables}

private theorem isSome_cmdDiagnose (hne : t.allProcesses ≠ []) :
    (cmdDiagnose sort sortDesc t).isSome ↔ (slowProcesses sortDesc t.allProcesses).isSome := by
  rw [cmdDiagnose]
  simp only [if_neg hne]
  cases slowProcesses sortDesc t.allProcesses with
  | none => exact Iff.rfl
  | some slow => exact Iff.rfl

private theorem isSome_handleDiagnostics (hne : t.allProcesses ≠ []) (orderBy : List (Str × Nat) → List (Str × Nat)) :
    (handleDiagnostics sort sortDesc t orderBy).isSome ↔ (slowProcesses sortDesc t.allProcesses).isSome := by
  rw [handleDiagnostics]
  simp only [if_neg hne]
  cases slowProcesses sortDesc t.allProcesses with
  | none => exact Iff.rfl
  | some slow => exact Iff.rfl

private theorem withoutSpan_perm {procs procs' : List ProcessRecord} (h : procs.Perm procs') :
    WithoutSpan procs ↔ WithoutSpan procs' := by
  simp only [WithoutSpan, h.mem_iff]

/-- The reports that guard the span never divide by zero, and the two diagnoses do so on the traces without a span. -/
theorem reports_divide_iff (hsort : SortsByDuration sortDesc) (hne : t.processes ≠ [])
    (hfit : ∀ r ∈ t.processes, r.Fits64) : ReportsDivide sort sortDesc t ↔ ¬ WithoutSpan t.processes := by
  have hperm : t.allProcesses.Perm t.processes := List.perm_insertionSort _ _
  have hall : t.allProcesses ≠ [] := fun h => hne (List.nil_perm.mp (h ▸ hperm))
  have hslow := isSome_slowProcesses_iff hsort hall fun r hr => hfit r (hperm.mem_iff.mp hr)
  rw [withoutSpan_perm hperm] at hslow
  constructor
  · intro h
    exact hslow.mp ((isSome_cmdDiagnose hall).mp h.diagnose)
  · intro h
    refine ⟨?_, ?_, ?_, ?_, ?_⟩
    · exact fun depthCache minDurationMs => isSome_cmdTimeline sort depthCache _ minDurationMs
    · exact isSome_cmdParallelChart _
    · exact (isSome_cmdDiagnose hall).mpr (hslow.mpr h)
    · exact isSome_analyzeParallelism64 _
    · exact fun orderBy => (isSome_handleDiagnostics hall orderBy).mpr (hslow.mpr h)

end Reports

/-- A sort by `cmp_duration_desc` that keeps equal durations in their order. -/
def longestFirst (procs : List ProcessRecord) : List ProcessRecord :=
  procs.insertionSort fun a b => b.durationUs ≤ a.durationUs

theorem longestFirst_sorts : SortsByDuration longestFirst := by
  refine ⟨fun procs => List.perm_insertionSort _ _, fun procs => ?_⟩
  have : Std.Total fun a b : ProcessRecord => b.durationUs ≤ a.durationUs := ⟨fun a b => Int.le_total _ _⟩
  have : IsTrans ProcessRecord fun a b => b.durationUs ≤ a.durationUs := ⟨fun a b c hab hbc => hbc.trans hab⟩
  exact List.pairwise_insertionSort _ _

/-- A build of which one process takes all the time, and one is unfinished. -/
private def oneSlow : Tables where
  processes := [{ pid := 1, startTimeUs := 1000, endTimeUs := 9000 }, { pid := 2, ppid := 1, startTimeUs := 2000 }]

theorem reports_divide_iff_oneSlow : ReportsDivide stableSort longestFirst oneSlow ∧
    (cmdDiagnose stableSort longestFirst oneSlow).isSome := by
  have hspan : ¬ WithoutSpan oneSlow.processes := by
    rintro ⟨⟨time, hall, -⟩, -⟩
    have htime := hall { pid := 1, startTimeUs := 1000, endTimeUs := 9000 } List.mem_cons_self
    simp only at htime
    omega
  have h : ReportsDivide stableSort longestFirst oneSlow :=
    (reports_divide_iff longestFirst_sorts (by decide) (by decide)).mpr hspan
  exact ⟨h, h.diagnose⟩

/-- A process that starts and ends in one microsecond. -/
private def atOnce : Tables where
  processes := [{ pid := 1, startTimeUs := 1000, endTimeUs := 1000 }]

theorem diagnosis_divides_by_zero : ¬ ∀ t : Tables, t.processes ≠ [] → (∀ r ∈ t.processes, r.Fits64) →
    ReportsDivide stableSort longestFirst t := by
  intro h
  have hdiagnose := (h atOnce (by decide) (by decide)).diagnose
  exact absurd hdiagnose (by decide)

end Bdtrace
