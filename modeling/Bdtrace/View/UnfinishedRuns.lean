import Bdtrace.View.RunCompaction

/-! `compact_runs` on interrupted traces, where a record of a process that never ended has no end time. -/
namespace Bdtrace
open GapClosing (AtGaps Covered)

variable {sort : List ProcessRecord → List ProcessRecord} {procs : List ProcessRecord}

/-- Moved records keep the order of their starts, unfinished ones stay so, and those that start within a second of
each other are moved together. -/
structure Tolerates (procs moved : List ProcessRecord) : Prop where
  order : ∀ p ∈ procs.zip moved, ∀ q ∈ procs.zip moved,
    p.1.startTimeUs ≤ q.1.startTimeUs → p.2.startTimeUs ≤ q.2.startTimeUs
  unfinished : ∀ p ∈ procs.zip moved, p.1.endTimeUs = 0 → p.2.endTimeUs = 0
  together : ∀ p ∈ procs.zip moved, ∀ q ∈ procs.zip moved, |p.1.startTimeUs - q.1.startTimeUs| ≤ gapThresholdUs →
    p.2.startTimeUs - q.2.startTimeUs = p.1.startTimeUs - q.1.startTimeUs

/-- Wherever a record starts more than a second after the ends of all before it, these start no later than the
latest of their ends, and from there on all are finished. -/
def CoveredGaps (sorted : List ProcessRecord) : Prop :=
  AtGaps (·.startTimeUs) (·.endTimeUs) gapThresholdUs
    (fun before after => (∀ p ∈ before, ∃ q ∈ before, p.startTimeUs ≤ q.endTimeUs) ∧
      ∀ r ∈ after, r.endTimeUs ≠ 0) sorted

instance CoveredGaps.decidable (sorted : List ProcessRecord) : Decidable (CoveredGaps sorted) :=
  inferInstanceAs (Decidable (AtGaps _ _ _ _ sorted))

private theorem shifts_split {pre post : List ProcessRecord} {r : ProcessRecord} (h : sort procs = pre ++ r :: post) :
    ∃ before y after, shifts sort procs = before ++ y :: after ∧ before.map Prod.fst = pre ∧ y.1 = r ∧
      after.map Prod.fst = post := by
  have hfst : (shifts sort procs).map Prod.fst = pre ++ r :: post := (GapClosing.placed_fst _ _ _ _).trans h
  obtain ⟨before, tail, hshifts, hbefore, htail⟩ := List.map_eq_append_iff.mp hfst
  obtain ⟨y, after, rfl, hy, hafter⟩ := List.map_eq_cons_iff.mp htail
  exact ⟨before, y, after, hshifts, hbefore, hy, hafter⟩

private theorem gapThresholdUs_nonneg : (0 : Int) ≤ gapThresholdUs := by decide

section
variable (hsort : SortsByStart sort) (hnd : (procs.map (·.pid)).Nodup)
include hsort hnd

/-- At a gap the records before it have smaller shifts than it, so that the end where it is put bounds their starts;
what comes after is shifted, and an end of zero with it. -/
private theorem coveredGaps_of_tolerates (h : Tolerates procs (compactRuns sort procs)) : CoveredGaps (sort procs) := by
  intro pre r post hsplit hpre hgap
  obtain ⟨before, y, after, hshifts, rfl, rfl, rfl⟩ := shifts_split hsplit
  have hne : before ≠ [] := fun hnil => hpre (by rw [hnil, List.map_nil])
  obtain ⟨q, hq, hstart, hlt, hlast⟩ :=
    GapClosing.placed_gap gapThresholdUs_nonneg (hsort.sorted procs) hshifts hne hgap
  have hgrows : (shifts sort procs).Pairwise fun p q => p.2 ≤ q.2 :=
    GapClosing.placed_grows _ gapThresholdUs_nonneg (hsort.sorted procs)
  have hunmoved : ∀ x ∈ shifts sort procs, x.1.endTimeUs = 0 → x.2 = 0 := by
    intro x hx hend
    have hmoved : x.1.endTimeUs - x.2 = 0 := h.unfinished _ ((mem_zip_compactRuns hsort hnd).mpr ⟨x, hx, rfl⟩) hend
    omega
  have hnonneg : ∀ x ∈ shifts sort procs, 0 ≤ x.2 :=
    GapClosing.placed_nonneg gapThresholdUs_nonneg (hsort.sorted procs)
  have hsorted := hsort.sorted procs
  rw [hsplit] at hsorted
  rw [hshifts] at hgrows hunmoved hnonneg
  constructor
  · intro p₀ hp₀
    obtain ⟨p, hp, rfl⟩ := List.mem_map.mp hp₀
    have hbefore : p.1.startTimeUs ≤ y.1.startTimeUs :=
      (List.pairwise_append.mp hsorted).2.2 p.1 hp₀ y.1 List.mem_cons_self
    have horder : p.1.startTimeUs - p.2 ≤ y.1.startTimeUs - y.2 :=
      h.order _ ((mem_zip_compactRuns hsort hnd).mpr ⟨p, by simp [hshifts, hp], rfl⟩) _
        ((mem_zip_compactRuns hsort hnd).mpr ⟨y, by simp [hshifts], rfl⟩) hbefore
    refine ⟨q.1, List.mem_map_of_mem hq, ?_⟩
    have hshift : p.2 ≤ q.2 := hlast p hp
    omega
  · intro u₀ hu₀ hend
    rw [← List.map_cons] at hu₀
    obtain ⟨u, hu, rfl⟩ := List.mem_map.mp hu₀
    have hzero : u.2 = 0 := hunmoved u (List.mem_append_right _ hu) hend
    have hfirst : 0 ≤ q.2 := hnonneg q (List.mem_append_left _ hq)
    have hshift : y.2 ≤ u.2 := by
      rcases List.mem_cons.mp hu with rfl | hu
      · exact le_rfl
      · exact (List.pairwise_cons.mp (List.pairwise_append.mp hgrows).2.1).1 u hu
    omega

private theorem tolerates_of_coveredGaps (h : CoveredGaps (sort procs)) : Tolerates procs (compactRuns sort procs) := by
  have hordered := GapClosing.placed_ordered gapThresholdUs_nonneg (hsort.sorted procs)
    fun pre r post hsplit hpre hgap => (h pre r post hsplit hpre hgap).1
  have hunmoved := GapClosing.placed_unmoved gapThresholdUs_nonneg (hsort.sorted procs)
    fun pre r post hsplit hpre hgap => (h pre r post hsplit hpre hgap).2
  refine ⟨fun p hp q hq hle => ?_, fun p hp hend => ?_, fun p hp q hq hclose => ?_⟩
  · obtain ⟨x, hx, rfl⟩ := (mem_zip_compactRuns hsort hnd).mp hp
    obtain ⟨y, hy, rfl⟩ := (mem_zip_compactRuns hsort hnd).mp hq
    exact (hordered x hx y hy).1 hle
  · obtain ⟨x, hx, rfl⟩ := (mem_zip_compactRuns hsort hnd).mp hp
    have hzero : x.2 = 0 := (hunmoved x hx).resolve_right fun hne => hne hend
    rw [hzero, ProcessRecord.shiftBy_zero]
    exact hend
  · obtain ⟨x, hx, rfl⟩ := (mem_zip_compactRuns hsort hnd).mp hp
    obtain ⟨y, hy, rfl⟩ := (mem_zip_compactRuns hsort hnd).mp hq
    have hshift : x.2 = y.2 := (hordered x hx y hy).2 hclose
    simp only [ProcessRecord.shiftBy]
    omega

theorem compactRuns_tolerates_iff : Tolerates procs (compactRuns sort procs) ↔ CoveredGaps (sort procs) :=
  ⟨coveredGaps_of_tolerates hsort hnd, tolerates_of_coveredGaps hsort hnd⟩

end

/-- A build whose last child was interrupted before the first idle second, and a build after it. -/
private def interruptedEarly : List ProcessRecord :=
  [{ pid := 1, startTimeUs := 5000000, endTimeUs := 5900000 }, { pid := 2, startTimeUs := 5500000 },
    { pid := 3, startTimeUs := 9000000, endTimeUs := 9500000 }]

theorem interruptedEarly_tolerated : Tolerates interruptedEarly (compactRuns stableSort interruptedEarly) :=
  (compactRuns_tolerates_iff stableSort_sorts (by decide)).mpr (by decide)

/-- A build and its child that were interrupted together. -/
private def interrupted : List ProcessRecord :=
  [{ pid := 1, startTimeUs := 5000000 }, { pid := 2, ppid := 1, startTimeUs := 5500000 }]

/-- The child is moved to the time zero, before its parent and out of its second, and its end below zero. -/
theorem interrupted_torn :
    SortsByStart stableSort ∧ (interrupted.map (·.pid)).Nodup ∧ (∀ r ∈ interrupted, 0 < r.startTimeUs) ∧
      (compactRuns stableSort interrupted).map (fun r => (r.startTimeUs, r.endTimeUs)) =
        [(5000000, 0), (0, -5500000)] ∧
      ¬ Tolerates interrupted (compactRuns stableSort interrupted) := by
  refine ⟨stableSort_sorts, by decide, by decide, by decide, fun h => ?_⟩
  exact absurd (h.unfinished ({ pid := 2, ppid := 1, startTimeUs := 5500000 },
    { pid := 2, ppid := 1, startTimeUs := 0, endTimeUs := -5500000 }) (by decide) rfl) (by decide)

end Bdtrace
