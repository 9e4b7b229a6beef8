import Bdtrace.General.IntervalSweep
import Bdtrace.Store.Tables
import Bdtrace.View.FinishedRuns

/-! The two maximum-parallelism figures: the sweep of the summary and the buckets of the parallelism analysis. -/
namespace Bdtrace
open IntervalSweep

/-- The processes with an end. -/
def finished (procs : List ProcessRecord) : List ProcessRecord := procs.filter fun r => 0 < r.endTimeUs

/-! ### The summary -/

/-- What the summary takes from the process rows alone. -/
structure Summary where
  totalUs : Int
  maxParallel : Int
  deriving DecidableEq, Repr

/-- The sorted starts and ends. -/
def parallelEvents (procs : List ProcessRecord) : List (Int × Int) :=
  (events (·.startTimeUs) (·.endTimeUs) (finished procs)).insertionSort Precedes

/-- `cmd_summary`. -/
def cmdSummary (procs : List ProcessRecord) : Summary where
  totalUs := (procs.map (·.endTimeUs)).foldl max 0 -
    match procs.map (·.startTimeUs) with
    | [] => 0
    | first :: rest => rest.foldl min first
  maxParallel := sweep 0 0 (parallelEvents procs)

/-- `handle_summary`. -/
def handleSummary (procs : List ProcessRecord) : Summary := cmdSummary procs

/-- The finished processes that run at `t`. -/
def runningAt (procs : List ProcessRecord) (t : Int) : Nat :=
  procs.countP fun r => 0 < r.endTimeUs ∧ r.startTimeUs ≤ t ∧ t < r.endTimeUs

private theorem active_finished (procs : List ProcessRecord) (t : Int) :
    active (·.startTimeUs) (·.endTimeUs) (finished procs) t = runningAt procs t := by
  rw [active, finished, List.countP_filter, runningAt]
  congr 1
  funext r
  simp [and_comm]

/-- The sweep of the summary finds the largest number of finished processes that run at one time. -/
theorem summary_maxParallel {procs : List ProcessRecord}
    (hprocs : ∀ r ∈ procs, 0 < r.endTimeUs → r.startTimeUs ≤ r.endTimeUs) :
    IsGreatest (Set.range fun t => (runningAt procs t : Int)) (cmdSummary procs).maxParallel ∧
      IsGreatest (Set.range fun t => (runningAt procs t : Int)) (handleSummary procs).maxParallel := by
  have hordered : ∀ r ∈ finished procs, r.startTimeUs ≤ r.endTimeUs := by
    intro r hr
    obtain ⟨hr, hend⟩ := List.mem_filter.mp hr
    exact hprocs r hr (by simpa using hend)
  have hsweep := sweep_isGreatest hordered (List.perm_insertionSort Precedes _) (List.pairwise_insertionSort Precedes _)
  simp only [active_finished] at hsweep
  exact ⟨hsweep, hsweep⟩

/-- Two processes that follow each other at one instant, and one that takes no time. -/
def relay : List ProcessRecord :=
  [{ pid := 1, startTimeUs := 10, endTimeUs := 20 }, { pid := 2, startTimeUs := 20, endTimeUs := 30 },
    { pid := 3, startTimeUs := 20, endTimeUs := 20 }, { pid := 4, startTimeUs := 15 }]

theorem summary_maxParallel_relay :
    IsGreatest (Set.range fun t => (runningAt relay t : Int)) (cmdSummary relay).maxParallel ∧
      IsGreatest (Set.range fun t => (runningAt relay t : Int)) (handleSummary relay).maxParallel :=
  summary_maxParallel (by decide)

/-! ### The buckets -/

/-- The earliest start and the latest end, from the first process on. -/
def timeSpan (first : ProcessRecord) (rest : List ProcessRecord) : Int × Int :=
  ((rest.map (·.startTimeUs)).foldl min first.startTimeUs, (rest.map (·.endTimeUs)).foldl max first.endTimeUs)

/-- The number of buckets and their width: a second, or more where that gives over 3600 of them. -/
def bucketing (totalUs : Int) : Int × Int :=
  let numBuckets := int32 (int32 (totalUs.tdiv 1000000) + 1)
  if numBuckets > 3600 then (3600, totalUs.tdiv 3600 + 1) else (numBuckets, 1000000)

/-- One more in the buckets from `startB` to `endB`. -/
def bump (startB endB : Int) (buckets : List Int) : List Int :=
  buckets.mapIdx fun b n => if startB ≤ b ∧ b ≤ endB then n + 1 else n

/-- The body of the loop over the processes. -/
def countProcess (minTime bucketUs numBuckets : Int) (buckets : List Int) (r : ProcessRecord) : List Int :=
  if r.endTimeUs ≤ 0 then buckets
  else
    let startB := int32 ((r.startTimeUs - minTime).tdiv bucketUs)
    let endB := int32 ((r.endTimeUs - minTime).tdiv bucketUs)
    bump (if startB < 0 then 0 else startB) (if endB ≥ numBuckets then numBuckets - 1 else endB) buckets

structure Parallelism where
  totalUs : Int := 0
  bucketUs : Int := 0
  buckets : List Int := []
  maxParallel : Int := 0
  deriving DecidableEq, Repr

/-- How the analysis ends: early, with figures, or with the exception of a vector of negative length. -/
inductive ParallelismResult where
  | noProcesses | noSpan | lengthError
  | figures (p : Parallelism)
  deriving DecidableEq, Repr

/-- The part that `cmd_parallel` and `handle_parallelism` share. -/
def analyzeParallelism : List ProcessRecord → ParallelismResult
  | [] => .noProcesses
  | first :: rest =>
    let span := timeSpan first rest
    let totalUs := span.2 - span.1
    if totalUs ≤ 0 then .noSpan
    else
      let layout := bucketing totalUs
      if layout.1 < 0 then .lengthError
      else
        let buckets := (first :: rest).foldl (countProcess span.1 layout.2 layout.1) (List.replicate layout.1.toNat 0)
        .figures { totalUs := totalUs, bucketUs := layout.2, buckets := buckets, maxParallel := buckets.foldl max 0 }

/-- The figure that `cmd_parallel` prints, if it prints one. -/
def cmdParallel (procs : List ProcessRecord) : Option Int :=
  match analyzeParallelism procs with
  | .figures p => some p.maxParallel
  | _ => none

/-- The answer of `handle_parallelism`; an exception ends the program. -/
def handleParallelism (sort : List ProcessRecord → List ProcessRecord) (procs : List ProcessRecord) :
    Option Parallelism :=
  match analyzeParallelism (compactRuns sort procs) with
  | .noProcesses | .noSpan => some {}
  | .lengthError => none
  | .figures p => some p

/-- The process, with both its ends, meets the time from `lo` on. -/
def Meets (lo width : Int) (r : ProcessRecord) : Prop := r.startTimeUs < lo + width ∧ lo ≤ r.endTimeUs

instance (lo width : Int) (r : ProcessRecord) : Decidable (Meets lo width r) := inferInstanceAs (Decidable (_ ∧ _))

/-- How many processes meet the `b`-th bucket. -/
def meeting (procs : List ProcessRecord) (minTime width : Int) (b : Nat) : Nat :=
  procs.countP fun r => Meets (minTime + b * width) width r

/-- Processes of a trace in time order, and buckets that cover it. -/
structure Bucketed (procs : List ProcessRecord) (minTime maxTime width : Int) (n : Nat) : Prop where
  finished : ∀ r ∈ procs, 0 < r.endTimeUs ∧ r.startTimeUs ≤ r.endTimeUs
  start : ∀ r ∈ procs, minTime ≤ r.startTimeUs
  last : ∀ r ∈ procs, r.endTimeUs ≤ maxTime
  wide : 0 < width
  covers : maxTime - minTime < n * width
  small : (n : Int) < 2147483648

/-- A loop whose body adds one to the counters of a row leaves in each the number of its rows. -/
theorem foldl_mapIdx_countP {α : Type} {p : α → Nat → Prop} [∀ a b, Decidable (p a b)] {body : List Int → α → List Int}
    {rows : List α}
    (hbody : ∀ a ∈ rows, ∀ counters, body counters a = counters.mapIdx fun b k => if p a b then k + 1 else k)
    (counters : List Int) : rows.foldl body counters = counters.mapIdx fun b (k : Int) => k + rows.countP (p · b) := by
  induction rows generalizing counters with
  | nil =>
    apply List.ext_getElem
    · simp
    · simp
  | cons a rows ih =>
    rw [List.foldl_cons, hbody a List.mem_cons_self, ih fun a' h => hbody a' (List.mem_cons_of_mem _ h),
      List.mapIdx_mapIdx]
    congr 1
    funext b k
    rw [List.countP_cons]
    by_cases hp : p a b
    · simp only [hp, if_true, decide_true, Nat.cast_add, Nat.cast_one, Function.comp_apply]
      omega
    · simp only [hp, if_false, decide_false, Bool.false_eq_true, Nat.add_zero, Function.comp_apply]

section Bucketed
variable {procs : List ProcessRecord} {minTime maxTime width : Int} {n : Nat}

/-- A time of the trace is in one of the buckets. -/
private theorem bucket_index (h : Bucketed procs minTime maxTime width n) {t : Int} (h0 : minTime ≤ t)
    (h1 : t ≤ maxTime) :
    int32 ((t - minTime).tdiv width) = (t - minTime) / width ∧ 0 ≤ (t - minTime) / width ∧
      (t - minTime) / width < n := by
  have hdiv : (t - minTime).tdiv width = (t - minTime) / width := Int.tdiv_eq_ediv_of_nonneg (by omega)
  have hlow : 0 ≤ (t - minTime) / width := Int.ediv_nonneg (by omega) h.wide.le
  have hhigh : (t - minTime) / width < n := by
    apply (Int.ediv_lt_iff_lt_mul h.wide).mpr
    have := h.covers
    omega
  have hsmall := h.small
  exact ⟨by rw [hdiv, int32_of_small hlow (by omega)], hlow, hhigh⟩

/-- A process is counted in the buckets that it meets. -/
private theorem countProcess_eq (h : Bucketed procs minTime maxTime width n) {r : ProcessRecord} (hr : r ∈ procs)
    (buckets : List Int) : countProcess minTime width n buckets r =
      buckets.mapIdx fun b k => if Meets (minTime + b * width) width r then k + 1 else k := by
  obtain ⟨hend, hle⟩ := h.finished r hr
  have hmin := h.start r hr
  have hmax := h.last r hr
  obtain ⟨hs, hs0, -⟩ := bucket_index h hmin (hle.trans hmax)
  obtain ⟨he, -, hen⟩ := bucket_index h (hmin.trans hle) hmax
  rw [countProcess, if_neg (by omega)]
  simp only [hs, he]
  rw [if_neg (by omega), if_neg (by omega), bump]
  congr 1
  funext b k
  have hstart : (r.startTimeUs - minTime) / width ≤ b ↔ r.startTimeUs < minTime + b * width + width := by
    rw [← Int.lt_add_one_iff, Int.ediv_lt_iff_lt_mul h.wide, add_mul, one_mul]
    omega
  have hlast : (b : Int) ≤ (r.endTimeUs - minTime) / width ↔ minTime + b * width ≤ r.endTimeUs := by
    rw [Int.le_ediv_iff_mul_le h.wide]
    omega
  exact if_congr (and_congr hstart hlast) rfl rfl

/-- What the loop has added to each bucket. -/
private theorem foldl_countProcess (h : Bucketed procs minTime maxTime width n) (buckets : List Int) :
    procs.foldl (countProcess minTime width n) buckets =
      buckets.mapIdx fun b (k : Int) => k + meeting procs minTime width b :=
  foldl_mapIdx_countP (fun _ hr => countProcess_eq h hr) buckets

/-- No process meets a bucket beyond the last. -/
private theorem meeting_beyond (h : Bucketed procs minTime maxTime width n) {b : Nat} (hb : n ≤ b) :
    meeting procs minTime width b = 0 := by
  refine List.countP_eq_zero.mpr fun r hr hmeets => ?_
  have hlo : minTime + b * width ≤ r.endTimeUs := (of_decide_eq_true hmeets).2
  have hlast := h.last r hr
  have hcovers := h.covers
  have hmul : (n : Int) * width ≤ b * width := Int.mul_le_mul_of_nonneg_right (by omega) h.wide.le
  omega

/-- Whoever runs at an instant meets its bucket. -/
private theorem runningAt_le_meeting (h : Bucketed procs minTime maxTime width n) (t : Int) :
    ∃ b, runningAt procs t ≤ meeting procs minTime width b := by
  refine ⟨((t - minTime) / width).toNat, List.countP_mono_left fun r hr hrun => ?_⟩
  obtain ⟨-, hstart, hend⟩ := of_decide_eq_true hrun
  have hmin := h.start r hr
  have hnonneg : 0 ≤ (t - minTime) / width := Int.ediv_nonneg (by omega) h.wide.le
  have hlow : (t - minTime) / width * width ≤ t - minTime := Int.ediv_mul_le _ h.wide.ne'
  have hhigh : t - minTime < ((t - minTime) / width + 1) * width := Int.lt_ediv_add_one_mul_self _ h.wide
  rw [add_mul, one_mul] at hhigh
  apply decide_eq_true
  rw [Int.toNat_of_nonneg hnonneg]
  constructor <;> omega

/-- The largest bucket. -/
private theorem foldl_max_isGreatest (h : Bucketed procs minTime maxTime width n) (hn : 0 < n) :
    IsGreatest (Set.range fun b => (meeting procs minTime width b : Int))
      ((procs.foldl (countProcess minTime width n) (List.replicate n 0)).foldl max 0) := by
  have hbuckets : procs.foldl (countProcess minTime width n) (List.replicate n 0) =
      (List.range n).map fun b => (meeting procs minTime width b : Int) := by
    rw [foldl_countProcess h]
    apply List.ext_getElem
    · simp
    · simp
  have hmem : ∀ {b}, b < n → (meeting procs minTime width b : Int) ∈
      (List.range n).map fun b => (meeting procs minTime width b : Int) := fun hb =>
    List.mem_map_of_mem (List.mem_range.mpr hb)
  rw [hbuckets]
  generalize hcounts : (List.range n).map (fun b => (meeting procs minTime width b : Int)) = counts at hmem
  obtain ⟨hzero, hle⟩ := Tables.foldl_max_ge counts 0
  refine ⟨?_, fun m hm => ?_⟩
  · rcases Tables.foldl_max_mem counts 0 with hmax | hmax
    · refine ⟨0, le_antisymm (hle _ (hmem hn)) ?_⟩
      rw [hmax]
      exact Int.natCast_nonneg _
    · rw [← hcounts] at hmax
      obtain ⟨b, -, hb⟩ := List.mem_map.mp hmax
      exact ⟨b, hcounts ▸ hb⟩
  · obtain ⟨b, rfl⟩ := hm
    by_cases hb : b < n
    · exact hle _ (hmem hb)
    · simp only [meeting_beyond h (not_lt.mp hb)]
      exact hzero

end Bucketed

/-! ### The figures of one run -/

/-- How long the trace lasts. -/
def spanUs : List ProcessRecord → Int
  | [] => 0
  | first :: rest => (timeSpan first rest).2 - (timeSpan first rest).1

/-- Where the first bucket begins. -/
def spanStart : List ProcessRecord → Int
  | [] => 0
  | first :: rest => (timeSpan first rest).1

/-- The number of seconds that are begun fits an `int`. -/
theorem bucketing_seconds {totalUs : Int} (hpos : 0 < totalUs) (hsmall : totalUs < 2147483647 * 1000000) :
    int32 (int32 (totalUs.tdiv 1000000) + 1) = totalUs / 1000000 + 1 := by
  have hlow : 0 ≤ totalUs / 1000000 := by omega
  have hhigh : totalUs / 1000000 < 2147483647 := by omega
  rw [Int.tdiv_eq_ediv_of_nonneg hpos.le, int32_of_small hlow (by omega), int32_of_small (by omega) (by omega)]

theorem bucketing_covers {totalUs : Int} (hpos : 0 < totalUs) (hsmall : totalUs < 2147483647 * 1000000) :
    0 < (bucketing totalUs).1 ∧ (bucketing totalUs).1 < 2147483648 ∧ 0 < (bucketing totalUs).2 ∧
      totalUs < (bucketing totalUs).1 * (bucketing totalUs).2 := by
  have hwide : totalUs.tdiv 3600 = totalUs / 3600 := Int.tdiv_eq_ediv_of_nonneg hpos.le
  simp only [bucketing, bucketing_seconds hpos hsmall, hwide]
  split
  · refine ⟨by omega, by omega, ?_, ?_⟩
    all_goals
      simp only
      omega
  · refine ⟨?_, ?_, by omega, ?_⟩
    all_goals
      simp only
      omega

private theorem foldl_min_le (ts : List Int) (m : Int) : ts.foldl min m ≤ m ∧ ∀ t ∈ ts, ts.foldl min m ≤ t := by
  induction ts generalizing m with
  | nil => exact ⟨le_rfl, fun t ht => (by cases ht)⟩
  | cons t ts ih =>
    obtain ⟨hm, hts⟩ := ih (min m t)
    refine ⟨hm.trans (min_le_left _ _), fun u hu => ?_⟩
    rcases List.mem_cons.mp hu with rfl | hu
    · exact hm.trans (min_le_right _ _)
    · exact hts u hu

private theorem foldl_min_mem (ts : List Int) (m : Int) : ts.foldl min m = m ∨ ts.foldl min m ∈ ts := by
  induction ts generalizing m with
  | nil => exact .inl rfl
  | cons t ts ih =>
    rw [List.foldl_cons]
    rcases ih (min m t) with h | h
    · rcases min_choice m t with hmin | hmin
      · exact .inl (h.trans hmin)
      · rw [h, hmin]
        exact .inr List.mem_cons_self
    · exact .inr (List.mem_cons_of_mem _ h)

theorem timeSpan_bounds (first : ProcessRecord) (rest : List ProcessRecord) :
    ∀ r ∈ first :: rest, (timeSpan first rest).1 ≤ r.startTimeUs ∧ r.endTimeUs ≤ (timeSpan first rest).2 := by
  intro r hr
  obtain ⟨hfirst, hstarts⟩ := foldl_min_le (rest.map (·.startTimeUs)) first.startTimeUs
  obtain ⟨hlast, hends⟩ := Tables.foldl_max_ge (rest.map (·.endTimeUs)) first.endTimeUs
  rcases List.mem_cons.mp hr with rfl | hr
  · exact ⟨hfirst, hlast⟩
  · exact ⟨hstarts _ (List.mem_map_of_mem hr), hends _ (List.mem_map_of_mem hr)⟩

/-- The extremes of the times are times of processes. -/
theorem span_attained {procs : List ProcessRecord} (hne : procs ≠ []) :
    (∃ r ∈ procs, r.startTimeUs = spanStart procs) ∧ ∃ r ∈ procs, r.endTimeUs = spanStart procs + spanUs procs := by
  obtain ⟨first, rest, rfl⟩ := List.exists_cons_of_ne_nil hne
  have hspan : spanStart (first :: rest) + spanUs (first :: rest) =
      (rest.map (·.endTimeUs)).foldl max first.endTimeUs := by
    simp only [spanStart, spanUs, timeSpan]
    omega
  rw [hspan]
  constructor
  · rcases foldl_min_mem (rest.map (·.startTimeUs)) first.startTimeUs with h | h
    · exact ⟨first, List.mem_cons_self, h.symm⟩
    · obtain ⟨r, hr, hstart⟩ := List.mem_map.mp h
      exact ⟨r, List.mem_cons_of_mem _ hr, hstart⟩
  · rcases Tables.foldl_max_mem (rest.map (·.endTimeUs)) first.endTimeUs with h | h
    · exact ⟨first, List.mem_cons_self, h.symm⟩
    · obtain ⟨r, hr, hend⟩ := List.mem_map.mp h
      exact ⟨r, List.mem_cons_of_mem _ hr, hend⟩

/-- One run is not moved. -/
private theorem compactRuns_oneRun {sort : List ProcessRecord → List ProcessRecord} {procs : List ProcessRecord}
    (hone : (runsOf sort procs).length ≤ 1) : compactRuns sort procs = procs := by
  rw [runsOf] at hone
  rw [compactRuns]
  split
  · rfl
  · split
    · rfl
    · rename_i hsorted
      rw [hsorted] at hone
      split
      · rfl
      · rfl
      · rename_i run runs hruns hsplit
        exfalso
        simp only [hsplit, List.length_cons] at hone
        exact hruns (List.eq_nil_of_length_eq_zero (by omega))

/-- A trace without a span, where nothing runs at any instant. -/
private theorem runningAt_noSpan {procs : List ProcessRecord} (hspan : spanUs procs ≤ 0) (t : Int) :
    runningAt procs t = 0 := by
  refine List.countP_eq_zero.mpr fun r hr hrun => ?_
  obtain ⟨-, hstart, hend⟩ := of_decide_eq_true hrun
  cases procs with
  | nil => cases hr
  | cons first rest =>
    obtain ⟨hmin, hmax⟩ := timeSpan_bounds first rest r hr
    simp only [spanUs] at hspan
    omega

/-- The figure that the buckets of a trace with a span give. -/
private theorem analyzeParallelism_figures {procs : List ProcessRecord}
    (hfinished : ∀ r ∈ procs, 0 < r.endTimeUs ∧ r.startTimeUs ≤ r.endTimeUs) (hpos : 0 < spanUs procs)
    (hsmall : spanUs procs < 2147483647 * 1000000) :
    ∃ p, analyzeParallelism procs = .figures p ∧
      IsGreatest (Set.range fun b => (meeting procs (spanStart procs) (bucketing (spanUs procs)).2 b : Int))
        p.maxParallel ∧
      ∀ t, ∃ b, runningAt procs t ≤ meeting procs (spanStart procs) (bucketing (spanUs procs)).2 b := by
  cases procs with
  | nil => cases hpos
  | cons first rest =>
    obtain ⟨hn, hlt, hwide, hcovers⟩ := bucketing_covers hpos hsmall
    obtain ⟨n, hcount⟩ : ∃ n : Nat, (bucketing (spanUs (first :: rest))).1 = n := Int.eq_ofNat_of_zero_le hn.le
    have hbucketed : Bucketed (first :: rest) (timeSpan first rest).1 (timeSpan first rest).2
        (bucketing (spanUs (first :: rest))).2 n :=
      ⟨hfinished, fun r hr => (timeSpan_bounds first rest r hr).1, fun r hr => (timeSpan_bounds first rest r hr).2,
        hwide, hcount ▸ hcovers, hcount ▸ hlt⟩
    have hfigures : analyzeParallelism (first :: rest) = .figures
        { totalUs := spanUs (first :: rest)
          bucketUs := (bucketing (spanUs (first :: rest))).2
          buckets := (first :: rest).foldl (countProcess (timeSpan first rest).1
            (bucketing (spanUs (first :: rest))).2 n) (List.replicate n 0)
          maxParallel := ((first :: rest).foldl (countProcess (timeSpan first rest).1
            (bucketing (spanUs (first :: rest))).2 n) (List.replicate n 0)).foldl max 0 } := by
      simp only [spanUs] at hpos hcount hn ⊢
      rw [analyzeParallelism]
      simp only [if_neg (not_le.mpr hpos), hcount, Int.toNat_natCast]
      rw [if_neg (by omega)]
    exact ⟨_, hfigures, foldl_max_isGreatest hbucketed (by omega), runningAt_le_meeting hbucketed⟩

/-- Finished processes of one run that lasts less than 2^31 - 1 seconds. -/
structure SingleRun (sort : List ProcessRecord → List ProcessRecord) (procs : List ProcessRecord) : Prop where
  oneRun : (runsOf sort procs).length ≤ 1
  finished : ∀ r ∈ procs, 0 < r.endTimeUs ∧ r.startTimeUs ≤ r.endTimeUs
  short : spanUs procs < 2147483647 * 1000000

/-- The buckets count whoever meets them, so their figure is at least that of the summary, and equal to it where
some instant has as many processes as the fullest bucket. -/
theorem parallelism_figures {sort : List ProcessRecord → List ProcessRecord} {procs : List ProcessRecord}
    (h : SingleRun sort procs) :
    (handleSummary procs).maxParallel = (cmdSummary procs).maxParallel ∧
      (spanUs procs ≤ 0 → cmdParallel procs = none ∧
        (handleParallelism sort procs).map (·.maxParallel) = some 0 ∧ (cmdSummary procs).maxParallel = 0) ∧
      (0 < spanUs procs → ∃ m, cmdParallel procs = some m ∧
        (handleParallelism sort procs).map (·.maxParallel) = some m ∧
        IsGreatest (Set.range fun b => (meeting procs (spanStart procs) (bucketing (spanUs procs)).2 b : Int)) m ∧
        (cmdSummary procs).maxParallel ≤ m ∧
        ((cmdSummary procs).maxParallel = m ↔
          ∃ t, ∀ b, meeting procs (spanStart procs) (bucketing (spanUs procs)).2 b ≤ runningAt procs t)) := by
  have hsummary := (summary_maxParallel fun r hr _ => (h.finished r hr).2).1
  refine ⟨rfl, fun hspan => ?_, fun hpos => ?_⟩
  · have hnone : analyzeParallelism procs = .noProcesses ∨ analyzeParallelism procs = .noSpan := by
      cases procs with
      | nil => exact .inl rfl
      | cons first rest => exact .inr (if_pos hspan)
    have hzero : (cmdSummary procs).maxParallel = 0 := by
      obtain ⟨t, ht⟩ := hsummary.1
      simp only [runningAt_noSpan hspan] at ht
      exact ht.symm
    rw [cmdParallel, handleParallelism, compactRuns_oneRun h.oneRun]
    rcases hnone with hnone | hnone
    · rw [hnone]
      exact ⟨rfl, rfl, hzero⟩
    · rw [hnone]
      exact ⟨rfl, rfl, hzero⟩
  · obtain ⟨p, hp, hmax, hbucket⟩ := analyzeParallelism_figures h.finished hpos h.short
    obtain ⟨⟨t₀, ht₀⟩, hupper⟩ := hsummary
    obtain ⟨⟨b₀, hb₀⟩, hfull⟩ := hmax
    have hle : (cmdSummary procs).maxParallel ≤ p.maxParallel := by
      obtain ⟨b, hb⟩ := hbucket t₀
      have := hfull (Set.mem_range_self b)
      simp only at ht₀ this
      omega
    refine ⟨p.maxParallel, ?_, ?_, ⟨⟨b₀, hb₀⟩, hfull⟩, hle, fun heq => ⟨t₀, fun b => ?_⟩, fun ⟨t, ht⟩ => ?_⟩
    · rw [cmdParallel, hp]
    · rw [handleParallelism, compactRuns_oneRun h.oneRun, hp]
      rfl
    · have := hfull (Set.mem_range_self b)
      simp only at ht₀ this
      omega
    · have hrun := hupper (Set.mem_range_self t)
      have hmeet := ht b₀
      simp only at hb₀ hrun
      omega

/-- A process that waits for another. -/
def nested : List ProcessRecord :=
  [{ pid := 1, startTimeUs := 1000000, endTimeUs := 1900000 },
    { pid := 2, startTimeUs := 1400000, endTimeUs := 1600000 }]

private theorem nested_singleRun : SingleRun stableSort nested := ⟨by decide, by decide, by decide⟩

theorem parallelism_figures_nested : SingleRun stableSort nested ∧ ∃ m, cmdParallel nested = some m ∧
    ((cmdSummary nested).maxParallel = m ↔
      ∃ t, ∀ b, meeting nested (spanStart nested) (bucketing (spanUs nested)).2 b ≤ runningAt nested t) := by
  obtain ⟨m, hcmd, -, -, -, hiff⟩ := (parallelism_figures nested_singleRun).2.2 (by decide)
  exact ⟨nested_singleRun, m, hcmd, hiff⟩

/-- Two processes that follow each other within one second. -/
def shortSteps : List ProcessRecord :=
  [{ pid := 1, startTimeUs := 1000000, endTimeUs := 1300000 },
    { pid := 2, startTimeUs := 1400000, endTimeUs := 1600000 }]

/-- One process that ran for 2^31 - 1 seconds. -/
def endless : List ProcessRecord := [{ pid := 1, startTimeUs := 1, endTimeUs := 2147483647000001 }]

theorem parallelism_shortSteps :
    ((runsOf stableSort shortSteps).length = 1 ∧ (∀ r ∈ shortSteps, 0 < r.endTimeUs ∧ r.startTimeUs ≤ r.endTimeUs) ∧
        (cmdSummary shortSteps).maxParallel = 1 ∧ cmdParallel shortSteps = some 2 ∧
        (handleParallelism stableSort shortSteps).map (·.maxParallel) = some 2) ∧
      (runsOf stableSort endless).length = 1 ∧ (∀ r ∈ endless, 0 < r.endTimeUs ∧ r.startTimeUs ≤ r.endTimeUs) ∧
        (cmdSummary endless).maxParallel = 1 ∧ cmdParallel endless = none ∧
          handleParallelism stableSort endless = none := by
  decide +kernel

end Bdtrace
