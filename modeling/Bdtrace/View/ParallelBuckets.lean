import Bdtrace.View.Parallelism

/-! The loop over the buckets of the parallelism analysis: where it writes, and what it leaves there. -/
namespace Bdtrace

/-- The buckets that the inner loop writes for a process, in their order. -/
def bucketIndices (minTime bucketUs numBuckets : Int) (r : ProcessRecord) : List Int :=
  if r.endTimeUs ≤ 0 then []
  else
    let startB := int32 ((r.startTimeUs - minTime).tdiv bucketUs)
    let endB := int32 ((r.endTimeUs - minTime).tdiv bucketUs)
    let startB := if startB < 0 then 0 else startB
    let endB := if endB ≥ numBuckets then numBuckets - 1 else endB
    (List.range (endB - startB + 1).toNat).map fun (i : Nat) => startB + i

/-- `buckets[b]++`; `none` outside the vector. -/
def increment (buckets : List Int) (b : Int) : Option (List Int) :=
  if 0 ≤ b ∧ b < buckets.length then some (buckets.modify b.toNat (· + 1)) else none

/-- The writes of the loop stay in the vector, of at most 3600 buckets, and leave the figures. -/
structure WrittenInBounds (procs : List ProcessRecord) (p : Parallelism) : Prop where
  few : p.buckets.length ≤ 3600
  indices : ∀ r ∈ procs, ∀ b ∈ bucketIndices (spanStart procs) p.bucketUs p.buckets.length r,
    0 ≤ b ∧ b < p.buckets.length
  writes : (procs.flatMap (bucketIndices (spanStart procs) p.bucketUs p.buckets.length)).foldlM increment
    (List.replicate p.buckets.length 0) = some p.buckets

/-- The finished process is counted in bucket `b`: its start by the floor of the quotient, its end, which may lie before
the first start, by the quotient rounded towards zero. -/
def CountedIn (minTime width : Int) (r : ProcessRecord) (b : Nat) : Prop :=
  0 < r.endTimeUs ∧ (r.startTimeUs - minTime) / width ≤ b ∧ b ≤ (r.endTimeUs - minTime).tdiv width

instance (minTime width : Int) (r : ProcessRecord) (b : Nat) : Decidable (CountedIn minTime width r b) :=
  inferInstanceAs (Decidable (_ ∧ _ ∧ _))

/-- The buckets reach the latest end, and each holds the number of the finished processes counted in it. -/
structure CountsCovered (procs : List ProcessRecord) (p : Parallelism) : Prop where
  wide : 0 < p.bucketUs
  reach : spanUs procs < p.buckets.length * p.bucketUs
  counts : ∀ b (h : b < p.buckets.length),
    p.buckets[b] = procs.countP fun r => CountedIn (spanStart procs) p.bucketUs r b

/-- Times between 0 and 2^50 microseconds. -/
def TimesInRange (procs : List ProcessRecord) : Prop :=
  ∀ r ∈ procs, (0 ≤ r.startTimeUs ∧ r.startTimeUs ≤ 2 ^ 50) ∧ 0 ≤ r.endTimeUs ∧ r.endTimeUs ≤ 2 ^ 50

instance (procs : List ProcessRecord) : Decidable (TimesInRange procs) :=
  inferInstanceAs (Decidable (∀ r ∈ procs,
    (0 ≤ r.startTimeUs ∧ r.startTimeUs ≤ 2 ^ 50) ∧ 0 ≤ r.endTimeUs ∧ r.endTimeUs ≤ 2 ^ 50))

/-- No start, no end and no end of a finished process is 2^31 - 1 seconds or more from the earliest start. -/
structure Spread (procs : List ProcessRecord) : Prop where
  starts : ∀ r ∈ procs, r.startTimeUs - spanStart procs < 2147483647000000
  ends : spanUs procs < 2147483647000000
  finished : ∀ r ∈ finished procs, spanStart procs - r.endTimeUs < 2147483647000000

/-! ### Where the loop writes -/

/-- The writes of a stretch of buckets. -/
private theorem foldlM_increment (start : Int) (count : Nat) {buckets : List Int} (h0 : 0 ≤ start)
    (h1 : start + count ≤ buckets.length) :
    ((List.range count).map fun (i : Nat) => start + i).foldlM increment buckets =
      some (buckets.mapIdx fun b k => if start ≤ b ∧ b < start + count then k + 1 else k) := by
  induction count with
  | zero =>
    refine congrArg some (List.ext_getElem (by simp) fun b _ _ => ?_)
    simp only [List.getElem_mapIdx]
    split <;> omega
  | succ count ih =>
    rw [List.range_succ, List.map_append, List.foldlM_append, ih (by omega)]
    simp only [List.map_cons, List.map_nil, List.foldlM_cons, List.foldlM_nil, Option.bind_eq_bind, Option.bind_some,
      increment, List.length_mapIdx]
    rw [if_pos (by omega)]
    simp only [Option.bind_some, Option.pure_def, Option.some.injEq]
    apply List.ext_getElem
    · simp
    · intro b hb _
      simp only [List.getElem_modify, List.getElem_mapIdx]
      split_ifs <;> omega

private theorem foldlM_bump {startB endB : Int} {buckets : List Int} (h0 : 0 ≤ startB) (h1 : endB < buckets.length) :
    ((List.range (endB - startB + 1).toNat).map fun (i : Nat) => startB + i).foldlM increment buckets =
      some (bump startB endB buckets) := by
  by_cases hle : startB ≤ endB
  · rw [foldlM_increment startB _ h0 (by omega), bump]
    refine congrArg some (List.ext_getElem (by simp) fun b _ _ => ?_)
    simp only [List.getElem_mapIdx]
    split_ifs <;> omega
  · have hzero : (endB - startB + 1).toNat = 0 := by omega
    rw [hzero, bump]
    refine congrArg some (List.ext_getElem (by simp) fun b _ _ => ?_)
    simp only [List.getElem_mapIdx]
    split <;> omega

section Loop
variable {minTime bucketUs : Int} {n : Nat} {buckets : List Int} {r : ProcessRecord}

/-- The clamps keep every index in the vector. -/
private theorem bucketIndices_bounds : ∀ b ∈ bucketIndices minTime bucketUs n r, 0 ≤ b ∧ b < n := by
  intro b hb
  unfold bucketIndices at hb
  split at hb
  · exact absurd hb List.not_mem_nil
  · obtain ⟨i, hi, rfl⟩ := List.mem_map.mp hb
    rw [List.mem_range] at hi
    constructor
    · split <;> omega
    · split at hi <;> split at hi <;> split <;> omega

/-- The inner loop is the step of the analysis. -/
private theorem foldlM_bucketIndices (hlen : buckets.length = n) :
    (bucketIndices minTime bucketUs n r).foldlM increment buckets =
      some (countProcess minTime bucketUs n buckets r) := by
  unfold bucketIndices countProcess
  split
  · rfl
  · apply foldlM_bump
    · split <;> omega
    · split <;> omega

private theorem length_countProcess (buckets : List Int) (r : ProcessRecord) :
    (countProcess minTime bucketUs n buckets r).length = buckets.length := by
  unfold countProcess
  split
  · rfl
  · simp [bump]

private theorem foldlM_writes (procs : List ProcessRecord) (hlen : buckets.length = n) :
    (procs.flatMap (bucketIndices minTime bucketUs n)).foldlM increment buckets =
      some (procs.foldl (countProcess minTime bucketUs n) buckets) := by
  induction procs generalizing buckets with
  | nil => rfl
  | cons r procs ih =>
    rw [List.flatMap_cons, List.foldlM_append, foldlM_bucketIndices hlen]
    exact ih ((length_countProcess _ _).trans hlen)

private theorem length_foldl_countProcess (procs : List ProcessRecord) (buckets : List Int) :
    (procs.foldl (countProcess minTime bucketUs n) buckets).length = buckets.length := by
  induction procs generalizing buckets with
  | nil => rfl
  | cons r procs ih => rw [List.foldl_cons, ih, length_countProcess]

end Loop

/-! ### The analysis -/

section Analysis
variable {procs : List ProcessRecord} {p : Parallelism}

private theorem bucketing_le (totalUs : Int) : (bucketing totalUs).1 ≤ 3600 := by
  unfold bucketing
  simp only
  split
  · exact le_rfl
  · rename_i h
    exact not_lt.mp h

/-- When the loop is reached, and from what it starts. -/
private theorem of_figures (h : analyzeParallelism procs = .figures p) : procs ≠ [] ∧ 0 < spanUs procs ∧
    0 ≤ (bucketing (spanUs procs)).1 ∧ p.bucketUs = (bucketing (spanUs procs)).2 ∧
    p.buckets = procs.foldl (countProcess (spanStart procs) p.bucketUs (bucketing (spanUs procs)).1)
      (List.replicate (bucketing (spanUs procs)).1.toNat 0) := by
  cases procs with
  | nil => cases h
  | cons first rest =>
    rw [analyzeParallelism] at h
    simp only at h
    split at h
    · cases h
    · rename_i hspan
      split at h
      · cases h
      · rename_i hcount
        obtain rfl := ParallelismResult.figures.inj h
        exact ⟨List.cons_ne_nil _ _, not_le.mp hspan, not_lt.mp hcount, rfl, rfl⟩

private theorem length_of_figures (h : analyzeParallelism procs = .figures p) :
    (p.buckets.length : Int) = (bucketing (spanUs procs)).1 := by
  obtain ⟨-, -, hcount, -, hbuckets⟩ := of_figures h
  obtain ⟨n, hn⟩ := Int.eq_ofNat_of_zero_le hcount
  rw [hn] at hbuckets ⊢
  rw [hbuckets, length_foldl_countProcess, List.length_replicate, Int.toNat_natCast]

private theorem writtenInBounds (h : analyzeParallelism procs = .figures p) : WrittenInBounds procs p := by
  have hlen := length_of_figures h
  obtain ⟨-, -, -, -, hbuckets⟩ := of_figures h
  refine ⟨?_, fun r _ => bucketIndices_bounds, ?_⟩
  · have := bucketing_le (spanUs procs)
    omega
  · rw [foldlM_writes procs List.length_replicate]
    rw [← hlen, Int.toNat_natCast] at hbuckets
    exact congrArg some hbuckets.symm

theorem spanUs_bounds {r : ProcessRecord} (hr : r ∈ procs) :
    spanStart procs ≤ r.startTimeUs ∧ r.endTimeUs ≤ spanStart procs + spanUs procs := by
  cases procs with
  | nil => cases hr
  | cons first rest =>
    obtain ⟨hstart, hend⟩ := timeSpan_bounds first rest r hr
    simp only [spanStart, spanUs]
    omega

private theorem tdiv_bounds {t width : Int} (hwide : 1000000 ≤ width) (hlow : 0 ≤ t) (hhigh : t < 2147483647000000) :
    0 ≤ t.tdiv width ∧ t.tdiv width < 2147483647 := by
  rw [Int.tdiv_eq_ediv_of_nonneg hlow]
  refine ⟨Int.ediv_nonneg hlow (by omega), ?_⟩
  apply (Int.ediv_lt_iff_lt_mul (by omega)).mpr
  omega

/-- A quotient by at least a second of a time that is less than 2^31 - 1 seconds away fits an `int`. -/
private theorem int32_tdiv {t width : Int} (hwide : 1000000 ≤ width) (hlow : -2147483647000000 < t)
    (hhigh : t < 2147483647000000) :
    int32 (t.tdiv width) = t.tdiv width ∧ (t < 0 → t.tdiv width ≤ 0) := by
  rcases le_or_gt 0 t with ht | ht
  · obtain ⟨h0, h1⟩ := tdiv_bounds hwide ht hhigh
    exact ⟨int32_of_range (by omega) (by omega), fun h => absurd ht (not_le.mpr h)⟩
  · obtain ⟨h0, h1⟩ := tdiv_bounds (t := -t) hwide (by omega) (by omega)
    rw [Int.neg_tdiv] at h0 h1
    exact ⟨int32_of_range (by omega) (by omega), fun _ => by omega⟩

/-- The body of the loop adds one to the buckets in which the process is counted. -/
private theorem countProcess_countedIn {width : Int} {n : Nat} (hspread : Spread procs) (hpos : 0 < spanUs procs)
    (hwide : 1000000 ≤ width) (hreach : spanUs procs < n * width) {r : ProcessRecord} (hr : r ∈ procs)
    (buckets : List Int) : countProcess (spanStart procs) width n buckets r =
      buckets.mapIdx fun b k => if CountedIn (spanStart procs) width r b then k + 1 else k := by
  obtain ⟨hstart, hend⟩ := spanUs_bounds hr
  have hstarts := hspread.starts r hr
  have hends := hspread.ends
  rw [countProcess]
  split
  · rename_i hunfinished
    refine List.ext_getElem (by simp) fun b _ _ => ?_
    rw [List.getElem_mapIdx, if_neg fun h => absurd h.1 (by omega)]
  · rename_i hfinished
    have hback := hspread.finished r (List.mem_filter.mpr ⟨hr, decide_eq_true (not_le.mp hfinished)⟩)
    have hs := (int32_tdiv (t := r.startTimeUs - spanStart procs) hwide (by omega) (by omega)).1
    obtain ⟨he, hnegative⟩ := int32_tdiv (t := r.endTimeUs - spanStart procs) hwide (by omega) (by omega)
    have hfloor : (r.startTimeUs - spanStart procs).tdiv width = (r.startTimeUs - spanStart procs) / width :=
      Int.tdiv_eq_ediv_of_nonneg (by omega)
    have hnonneg : 0 ≤ (r.startTimeUs - spanStart procs) / width := Int.ediv_nonneg (by omega) (by omega)
    have hlast : (r.endTimeUs - spanStart procs).tdiv width < n := by
      rcases le_or_gt 0 (r.endTimeUs - spanStart procs) with hle | hlt
      · rw [Int.tdiv_eq_ediv_of_nonneg hle]
        apply (Int.ediv_lt_iff_lt_mul (by omega)).mpr
        omega
      · have hn : n ≠ 0 := by
          rintro rfl
          simp at hreach
          omega
        have := hnegative hlt
        omega
    simp only [hs.trans hfloor, he]
    rw [if_neg (not_lt.mpr hnonneg), if_neg (not_le.mpr hlast), bump]
    congr 1
    funext b k
    exact if_congr (and_iff_right (not_le.mp hfinished)).symm rfl rfl

private theorem second_le_width {totalUs : Int} (hpos : 0 < totalUs) (hsmall : totalUs < 2147483647000000) :
    1000000 ≤ (bucketing totalUs).2 := by
  have hwide : totalUs.tdiv 3600 = totalUs / 3600 := Int.tdiv_eq_ediv_of_nonneg hpos.le
  simp only [bucketing, bucketing_seconds hpos (by omega), hwide]
  split
  · simp only
    omega
  · exact le_rfl

private theorem countsCovered (hspread : Spread procs) (h : analyzeParallelism procs = .figures p) :
    CountsCovered procs p := by
  obtain ⟨-, hpos, -, hwidth, hbuckets⟩ := of_figures h
  have hlen := length_of_figures h
  obtain ⟨-, -, hwide, hcovers⟩ := bucketing_covers hpos hspread.ends
  have hsecond := second_le_width hpos hspread.ends
  rw [← hlen, ← hwidth] at hcovers
  rw [← hwidth] at hwide hsecond
  refine ⟨hwide, hcovers, fun b hb => ?_⟩
  have hloop := foldl_mapIdx_countP (fun r hr => countProcess_countedIn hspread hpos hsecond hcovers hr)
    (List.replicate p.buckets.length 0)
  rw [← hlen, Int.toNat_natCast, hloop] at hbuckets
  rw [List.getElem_of_eq hbuckets, List.getElem_mapIdx, List.getElem_replicate, Int.zero_add]

end Analysis

private theorem spread_of_timesInRange {procs : List ProcessRecord} (h : TimesInRange procs) : Spread procs := by
  cases procs with
  | nil => exact ⟨fun r hr => absurd hr List.not_mem_nil, by decide, fun r hr => absurd hr List.not_mem_nil⟩
  | cons first rest =>
    obtain ⟨⟨a, ha, hstart⟩, ⟨b, hb, hend⟩⟩ := span_attained (List.cons_ne_nil first rest)
    obtain ⟨⟨hlow, hlow'⟩, -⟩ := h a ha
    obtain ⟨-, -, hhigh⟩ := h b hb
    constructor
    · intro r hr
      have := (h r hr).1.2
      omega
    · omega
    · intro r hr
      have := (h r (List.mem_filter.mp hr).1).2.1
      omega

/-- Both analyses write in bounds, and count every finished process in the buckets from its start to its end. -/
theorem buckets_exact (sort : List ProcessRecord → List ProcessRecord) (procs : List ProcessRecord)
    (hrange : TimesInRange procs) :
    (∀ p, analyzeParallelism procs = .figures p → WrittenInBounds procs p ∧ CountsCovered procs p) ∧
    ∀ p, analyzeParallelism (compactRuns sort procs) = .figures p → handleParallelism sort procs = some p ∧
      WrittenInBounds (compactRuns sort procs) p ∧
      (Spread (compactRuns sort procs) → CountsCovered (compactRuns sort procs) p) := by
  refine ⟨fun p h => ⟨writtenInBounds h, countsCovered (spread_of_timesInRange hrange) h⟩, fun p h => ⟨?_, ?_, ?_⟩⟩
  · rw [handleParallelism, h]
  · exact writtenInBounds h
  · exact fun hspread => countsCovered hspread h

theorem buckets_exact_nested : ∃ p, analyzeParallelism nested = .figures p ∧ WrittenInBounds nested p ∧
    CountsCovered nested p := by
  have h := (buckets_exact stableSort nested (by decide)).1
  exact ⟨_, rfl, h _ rfl⟩

/-- A process that ended before the first start, and one that ran. -/
def reversed : List ProcessRecord :=
  [{ pid := 1, startTimeUs := 2000000, endTimeUs := 1800000 },
    { pid := 2, startTimeUs := 2500000, endTimeUs := 5000000 }]

/-- A process that ended, and five that never did. -/
def neverEnded : List ProcessRecord :=
  { pid := 1, startTimeUs := 0, endTimeUs := 10 } ::
    [2, 3, 4, 5, 6].map fun pid => { pid := pid, startTimeUs := 1073741824750000 }

/-- The first bucket also counts a process whose end has a negative floor. Without gaps the processes that never ended
spread so far that the number of seconds is truncated, and the buckets do not reach the end. -/
theorem buckets_not_floored :
    (TimesInRange reversed ∧ ∃ p, analyzeParallelism reversed = .figures p ∧ p.buckets.head? = some 2 ∧
      (reversed.countP fun r => 0 < r.endTimeUs ∧ (r.startTimeUs - spanStart reversed) / p.bucketUs ≤ 0 ∧
        0 ≤ (r.endTimeUs - spanStart reversed) / p.bucketUs) = 1) ∧
    TimesInRange neverEnded ∧ ∃ p, handleParallelism stableSort neverEnded = some p ∧
      p.buckets = [0, 0, 1, 1] ∧ p.bucketUs = 1000000 ∧
        spanUs (compactRuns stableSort neverEnded) = 4294967299000000 := by
  refine ⟨⟨by decide, _, rfl, by decide, by decide⟩, by decide, _, rfl, ?_, ?_, ?_⟩
  all_goals decide +kernel

end Bdtrace
