import Bdtrace.View.RunCompaction
import Mathlib.Data.List.Chain
import Mathlib.Order.Bounds.Basic

/-! `compact_runs` on traces whose processes all ended. -/
namespace Bdtrace

variable {sort : List ProcessRecord → List ProcessRecord} {procs : List ProcessRecord}

/-- The runs of the sorted copy. -/
def runsOf (sort : List ProcessRecord → List ProcessRecord) (procs : List ProcessRecord) : List CompactRun :=
  match sort procs with
  | [] => []
  | first :: rest => splitRuns (.begin first) rest

/-- The records of `runs` keep their places and durations, those of a run are moved together, the order of the starts
is kept, and a run starts where the run before it ended. -/
structure Compacts (runs : List CompactRun) (procs moved : List ProcessRecord) : Prop where
  parts : (runs.flatMap (·.procs)).Perm procs
  kept : List.Forall₂ (fun r m => m = { r with startTimeUs := m.startTimeUs, endTimeUs := m.endTimeUs } ∧
    m.endTimeUs - m.startTimeUs = r.endTimeUs - r.startTimeUs) procs moved
  within : ∀ run ∈ runs, ∀ p ∈ procs.zip moved, ∀ q ∈ procs.zip moved, p.1 ∈ run.procs → q.1 ∈ run.procs →
    p.2.startTimeUs - q.2.startTimeUs = p.1.startTimeUs - q.1.startTimeUs ∧
      p.2.startTimeUs - q.2.endTimeUs = p.1.startTimeUs - q.1.endTimeUs ∧
      p.2.endTimeUs - q.2.endTimeUs = p.1.endTimeUs - q.1.endTimeUs
  order : ∀ p ∈ procs.zip moved, ∀ q ∈ procs.zip moved,
    p.1.startTimeUs ≤ q.1.startTimeUs → p.2.startTimeUs ≤ q.2.startTimeUs
  adjoin : runs.IsChain fun run next => ∃ t,
    IsGreatest {e | ∃ p ∈ procs.zip moved, p.1 ∈ run.procs ∧ p.2.endTimeUs = e} t ∧
      IsLeast {s | ∃ p ∈ procs.zip moved, p.1 ∈ next.procs ∧ p.2.startTimeUs = s} t

/-! ### The runs and their shifts -/

/-- The times of the run are those of its records, and all have one shift. -/
structure CompactRun.Shifted (run : CompactRun) (shift : ProcessRecord → Int) (gap : Int) : Prop where
  start : ∃ r ∈ run.procs, r.startTimeUs = run.minStart
  first : ∀ r ∈ run.procs, run.minStart ≤ r.startTimeUs
  finish : ∃ r ∈ run.procs, r.endTimeUs = run.maxEnd
  last : ∀ r ∈ run.procs, r.endTimeUs ≤ run.maxEnd
  uniform : ∀ r ∈ run.procs, shift r = gap

theorem CompactRun.Shifted.begin {shift : ProcessRecord → Int} (r : ProcessRecord) :
    (CompactRun.begin r).Shifted shift (shift r) where
  start := ⟨r, List.mem_singleton_self r, rfl⟩
  first q hq := by rw [List.mem_singleton.mp hq, CompactRun.begin]
  finish := ⟨r, List.mem_singleton_self r, rfl⟩
  last q hq := by rw [List.mem_singleton.mp hq, CompactRun.begin]
  uniform q hq := by rw [List.mem_singleton.mp hq]

theorem CompactRun.Shifted.snoc {cur : CompactRun} {shift : ProcessRecord → Int} {gap : Int} (h : cur.Shifted shift gap)
    {r : ProcessRecord} (hlater : ∀ p ∈ cur.procs, p.startTimeUs ≤ r.startTimeUs) (hshift : shift r = gap) :
    CompactRun.Shifted { cur with procs := cur.procs ++ [r], maxEnd := max cur.maxEnd r.endTimeUs } shift gap where
  start := by
    obtain ⟨p, hp, hstart⟩ := h.start
    exact ⟨p, List.mem_append_left _ hp, hstart⟩
  first := by
    obtain ⟨p, hp, hstart⟩ := h.start
    exact List.forall_mem_append.mpr ⟨h.first, List.forall_mem_singleton.mpr (hstart ▸ hlater p hp)⟩
  finish := by
    obtain ⟨p, hp, hend⟩ := h.finish
    rcases max_choice cur.maxEnd r.endTimeUs with hmax | hmax
    · exact ⟨p, List.mem_append_left _ hp, hend.trans hmax.symm⟩
    · exact ⟨r, List.mem_append_right _ (List.mem_singleton_self r), hmax.symm⟩
  last := List.forall_mem_append.mpr
    ⟨fun q hq => (h.last q hq).trans (le_max_left _ _), List.forall_mem_singleton.mpr (le_max_right _ _)⟩
  uniform := List.forall_mem_append.mpr ⟨h.uniform, List.forall_mem_singleton.mpr hshift⟩

/-- Every run has one shift, and from one run to the next it grows by the idle time between them. -/
private theorem splitRuns_shifted {shift : ProcessRecord → Int} (rest : List ProcessRecord)
    {cur : CompactRun} {gap : Int}
    (hcur : cur.Shifted shift gap) (hrest : ∀ r ∈ rest, shift r = gap + idleFrom cur.maxEnd rest r.pid)
    (hnd : (rest.map (·.pid)).Nodup) (hsorted : (cur.procs ++ rest).Pairwise fun a b => a.startTimeUs ≤ b.startTimeUs) :
    (∀ run ∈ splitRuns cur rest, ∃ gap, run.Shifted shift gap) ∧
      (splitRuns cur rest).IsChain fun run next => ∀ a ∈ run.procs, ∀ b ∈ next.procs,
        next.minStart - shift b = run.maxEnd - shift a := by
  induction rest generalizing cur gap with
  | nil => exact ⟨fun run hrun => ⟨gap, List.mem_singleton.mp hrun ▸ hcur⟩, List.isChain_singleton _⟩
  | cons r rest ih =>
    rw [List.map_cons, List.nodup_cons] at hnd
    have hother : ∀ q ∈ rest, r.pid ≠ q.pid := fun q hq heq => hnd.1 (heq ▸ List.mem_map_of_mem hq)
    have hr := hrest r List.mem_cons_self
    rw [splitRuns]
    split
    · rename_i hgap
      rw [idleFrom, if_pos hgap, if_pos rfl, Int.add_zero] at hr
      have hnext : ∀ q ∈ rest, shift q = shift r + idleFrom (CompactRun.begin r).maxEnd rest q.pid := by
        intro q hq
        rw [hrest q (List.mem_cons_of_mem _ hq), hr, idleFrom, if_pos hgap, if_pos hgap, if_neg (hother q hq)]
        exact (Int.add_assoc _ _ _).symm
      obtain ⟨hruns, hchain⟩ := ih (CompactRun.Shifted.begin r) hnext hnd.2 (List.pairwise_append.mp hsorted).2.1
      obtain ⟨run, runs, heq, hpre, hmin⟩ := splitRuns_cons (.begin r) rest
      rw [heq] at hruns hchain ⊢
      refine ⟨fun x hx => ?_, List.isChain_cons_cons.mpr ⟨fun a ha b hb => ?_, hchain⟩⟩
      · rcases List.mem_cons.mp hx with rfl | hx
        · exact ⟨gap, hcur⟩
        · exact hruns x hx
      · obtain ⟨k, hrun⟩ := hruns run List.mem_cons_self
        have hk : shift r = k := hrun.uniform r (hpre.subset List.mem_cons_self)
        have hb' : shift b = k := hrun.uniform b hb
        have ha' : shift a = gap := hcur.uniform a ha
        have hmin' : run.minStart = r.startTimeUs := hmin
        omega
    · rename_i hgap
      rw [idleFrom, if_neg hgap, if_pos rfl, Int.add_zero, Int.add_zero] at hr
      have hlater : ∀ p ∈ cur.procs, p.startTimeUs ≤ r.startTimeUs := fun p hp =>
        (List.pairwise_append.mp hsorted).2.2 p hp r List.mem_cons_self
      apply ih (hcur.snoc hlater hr) ?_ hnd.2
      · rw [List.append_assoc]
        exact hsorted
      · intro q hq
        rw [hrest q (List.mem_cons_of_mem _ hq), idleFrom, if_neg hgap, if_neg hgap, if_neg (hother q hq), Int.zero_add]

section
variable (hsort : SortsByStart sort) (hnd : (procs.map (·.pid)).Nodup)
include hsort

private theorem runsOf_perm (procs : List ProcessRecord) : ((runsOf sort procs).flatMap (·.procs)).Perm procs := by
  have hperm := hsort.perm procs
  rw [runsOf]
  generalize sort procs = sorted at hperm ⊢
  cases sorted with
  | nil => exact hperm
  | cons first rest =>
    rw [splitRuns_procs]
    exact hperm

include hnd

private theorem runsOf_shifted :
    (∀ run ∈ runsOf sort procs, ∃ gap, run.Shifted (fun r => idleBefore (sort procs) r.pid) gap) ∧
      (runsOf sort procs).IsChain fun run next => ∀ a ∈ run.procs, ∀ b ∈ next.procs,
        next.minStart - idleBefore (sort procs) b.pid = run.maxEnd - idleBefore (sort procs) a.pid := by
  have hpids : ((sort procs).map (·.pid)).Nodup := ((hsort.perm procs).map _).nodup_iff.mpr hnd
  have hsorted := hsort.sorted procs
  rw [runsOf]
  generalize sort procs = sorted at hpids hsorted ⊢
  cases sorted with
  | nil => simp
  | cons first rest =>
    rw [List.map_cons, List.nodup_cons] at hpids
    apply splitRuns_shifted rest (CompactRun.Shifted.begin first) ?_ hpids.2 hsorted
    intro q hq
    have hother : first.pid ≠ q.pid := fun heq => hpids.1 (heq ▸ List.mem_map_of_mem hq)
    show idleBefore (first :: rest) q.pid = idleBefore (first :: rest) first.pid + _
    rw [idleBefore, if_neg hother, idleBefore, if_pos rfl, Int.zero_add]
    rfl

/-- The records of a run have one shift. -/
private theorem within_run {run : CompactRun} (hrun : run ∈ runsOf sort procs) {p q : ProcessRecord × ProcessRecord}
    (hp : p ∈ procs.zip (compactRuns sort procs)) (hq : q ∈ procs.zip (compactRuns sort procs)) (hpr : p.1 ∈ run.procs)
    (hqr : q.1 ∈ run.procs) :
    p.2.startTimeUs - q.2.startTimeUs = p.1.startTimeUs - q.1.startTimeUs ∧
      p.2.startTimeUs - q.2.endTimeUs = p.1.startTimeUs - q.1.endTimeUs ∧
      p.2.endTimeUs - q.2.endTimeUs = p.1.endTimeUs - q.1.endTimeUs := by
  obtain ⟨gap, hshifted⟩ := (runsOf_shifted hsort hnd).1 run hrun
  have hshift : idleBefore (sort procs) p.1.pid = idleBefore (sort procs) q.1.pid :=
    (hshifted.uniform p.1 hpr).trans (hshifted.uniform q.1 hqr).symm
  rw [((mem_zip_iff hsort hnd).mp hp).2, ((mem_zip_iff hsort hnd).mp hq).2, hshift]
  simp only [ProcessRecord.shiftBy]
  omega

/-- With the shift of its records a run has its latest end where it had it, less the shift. -/
private theorem isGreatest_moved {run : CompactRun} {gap : Int} (hprocs : ∀ r ∈ run.procs, r ∈ procs)
    (h : run.Shifted (fun r => idleBefore (sort procs) r.pid) gap) :
    IsGreatest {e | ∃ p ∈ procs.zip (compactRuns sort procs), p.1 ∈ run.procs ∧ p.2.endTimeUs = e}
      (run.maxEnd - gap) := by
  obtain ⟨a, ha, hend⟩ := h.finish
  constructor
  · rw [← hend, ← h.uniform a ha]
    exact ⟨(a, a.shiftBy _), (mem_zip_iff hsort hnd).mpr ⟨hprocs a ha, rfl⟩, ha, rfl⟩
  · rintro e ⟨p, hp, hpr, rfl⟩
    have hshift := h.uniform p.1 hpr
    have hle := h.last p.1 hpr
    rw [((mem_zip_iff hsort hnd).mp hp).2]
    simp only [ProcessRecord.shiftBy]
    omega

private theorem isLeast_moved {run : CompactRun} {gap : Int} (hprocs : ∀ r ∈ run.procs, r ∈ procs)
    (h : run.Shifted (fun r => idleBefore (sort procs) r.pid) gap) :
    IsLeast {s | ∃ p ∈ procs.zip (compactRuns sort procs), p.1 ∈ run.procs ∧ p.2.startTimeUs = s}
      (run.minStart - gap) := by
  obtain ⟨b, hb, hstart⟩ := h.start
  constructor
  · rw [← hstart, ← h.uniform b hb]
    exact ⟨(b, b.shiftBy _), (mem_zip_iff hsort hnd).mpr ⟨hprocs b hb, rfl⟩, hb, rfl⟩
  · rintro s ⟨p, hp, hpr, rfl⟩
    have hshift := h.uniform p.1 hpr
    have hle := h.first p.1 hpr
    rw [((mem_zip_iff hsort hnd).mp hp).2]
    simp only [ProcessRecord.shiftBy]
    omega

private theorem runs_adjoin : (runsOf sort procs).IsChain fun run next => ∃ t,
    IsGreatest {e | ∃ p ∈ procs.zip (compactRuns sort procs), p.1 ∈ run.procs ∧ p.2.endTimeUs = e} t ∧
      IsLeast {s | ∃ p ∈ procs.zip (compactRuns sort procs), p.1 ∈ next.procs ∧ p.2.startTimeUs = s} t := by
  obtain ⟨hshifted, hchain⟩ := runsOf_shifted hsort hnd
  have hprocs : ∀ run ∈ runsOf sort procs, ∀ r ∈ run.procs, r ∈ procs := fun run hrun r hr =>
    (runsOf_perm hsort procs).mem_iff.mp (List.mem_flatMap.mpr ⟨run, hrun, hr⟩)
  apply hchain.imp_of_mem_imp
  intro run next hrun hnext hadjoin
  obtain ⟨gap, h⟩ := hshifted run hrun
  obtain ⟨gap', h'⟩ := hshifted next hnext
  obtain ⟨a, ha, -⟩ := h.finish
  obtain ⟨b, hb, -⟩ := h'.start
  have hmeet : next.minStart - gap' = run.maxEnd - gap := by
    rw [← h.uniform a ha, ← h'.uniform b hb]
    exact hadjoin a ha b hb
  exact ⟨run.maxEnd - gap, isGreatest_moved hsort hnd (hprocs run hrun) h,
    hmeet ▸ isLeast_moved hsort hnd (hprocs next hnext) h'⟩

private theorem compactRuns_compacts (hfinished : ∀ r ∈ procs, r.startTimeUs ≤ r.endTimeUs) :
    Compacts (runsOf sort procs) procs (compactRuns sort procs) where
  parts := runsOf_perm hsort procs
  kept := by
    rw [compactRuns_eq hsort hnd, List.forall₂_map_right_iff, List.forall₂_same]
    intro r _
    exact ⟨rfl, by simp only [ProcessRecord.shiftBy]; omega⟩
  within _ hrun _ hp _ hq hpr hqr := within_run hsort hnd hrun hp hq hpr hqr
  order p hp q hq hle := by
    have hordered := GapClosing.placed_ordered (by decide : (0 : Int) ≤ gapThresholdUs) (hsort.sorted procs)
      (GapClosing.covered_of_le fun r hr => hfinished r ((hsort.perm procs).mem_iff.mp hr))
    obtain ⟨x, hx, rfl⟩ := (mem_zip_compactRuns hsort hnd).mp hp
    obtain ⟨y, hy, rfl⟩ := (mem_zip_compactRuns hsort hnd).mp hq
    exact (hordered x hx y hy).1 hle
  adjoin := runs_adjoin hsort hnd

private theorem nodup_compactRuns : ((compactRuns sort procs).map (·.pid)).Nodup := by
  rw [compactRuns_eq hsort hnd, List.map_map]
  exact hnd

/-- Compacted records have no gap left, whatever order a second sort gives to equal starts. -/
private theorem compactRuns_again (hfinished : ∀ r ∈ procs, r.startTimeUs ≤ r.endTimeUs)
    {sort' : List ProcessRecord → List ProcessRecord} (hsort' : SortsByStart sort') :
    compactRuns sort' (compactRuns sort procs) = compactRuns sort procs := by
  have hthreshold : (0 : Int) ≤ gapThresholdUs := by decide
  have hnd' := nodup_compactRuns hsort hnd
  have hmoved : ∀ y, y ∈ sort' (compactRuns sort procs) ↔ ∃ p ∈ shifts sort procs, p.1.shiftBy p.2 = y := by
    intro y
    rw [(hsort'.perm _).mem_iff, compactRuns_eq hsort hnd, shifts_eq hsort hnd, List.mem_map]
    constructor
    · rintro ⟨r, hr, rfl⟩
      exact ⟨_, List.mem_map_of_mem ((hsort.perm procs).mem_iff.mpr hr), rfl⟩
    · rintro ⟨p, hp, rfl⟩
      obtain ⟨r, hr, rfl⟩ := List.mem_map.mp hp
      exact ⟨r, (hsort.perm procs).mem_iff.mp hr, rfl⟩
  have hclosed := GapClosing.placed_closed hthreshold (hsort.sorted procs)
    (fun r hr => hfinished r ((hsort.perm procs).mem_iff.mp hr)) (hsort'.sorted (compactRuns sort procs))
    (fun y hy => by
      obtain ⟨p, hp, rfl⟩ := (hmoved y).mp hy
      exact ⟨p, hp, rfl, rfl⟩)
    (fun p hp => ⟨_, (hmoved _).mpr ⟨p, hp, rfl⟩, rfl, rfl⟩)
  have hstay : ∀ r ∈ compactRuns sort procs, idleBefore (sort' (compactRuns sort procs)) r.pid = 0 := by
    intro r hr
    have hmem : (r, idleBefore (sort' (compactRuns sort procs)) r.pid) ∈ shifts sort' (compactRuns sort procs) := by
      rw [shifts_eq hsort' hnd']
      exact List.mem_map_of_mem ((hsort'.perm _).mem_iff.mpr hr)
    have hunmoved := GapClosing.placed_unmoved hthreshold (hsort'.sorted _)
      (fun pre x post hsplit hpre hgap _ _ => hclosed pre x post hsplit hpre hgap) _ hmem
    exact hunmoved.resolve_right id
  rw [compactRuns_eq hsort' hnd']
  conv_rhs => rw [← List.map_id (compactRuns sort procs)]
  exact List.map_congr_left fun r hr => by rw [hstay r hr, r.shiftBy_zero, id]

theorem compactRuns_finished (hfinished : ∀ r ∈ procs, r.startTimeUs ≤ r.endTimeUs) :
    Compacts (runsOf sort procs) procs (compactRuns sort procs) ∧
      ∀ sort', SortsByStart sort' → compactRuns sort' (compactRuns sort procs) = compactRuns sort procs :=
  ⟨compactRuns_compacts hsort hnd hfinished, fun _ hsort' => compactRuns_again hsort hnd hfinished hsort'⟩

end

/-- Three builds, the last one listed first, and two processes of the second that start together. -/
private def threeBuilds : List ProcessRecord :=
  [{ pid := 7, startTimeUs := 9000000, endTimeUs := 9000500 }, { pid := 1, startTimeUs := 1000, endTimeUs := 2000 },
    { pid := 2, startTimeUs := 5000000, endTimeUs := 5000000 },
      { pid := 3, startTimeUs := 5000000, endTimeUs := 6000000 }]

theorem threeBuilds_compacted :
    Compacts (runsOf stableSort threeBuilds) threeBuilds (compactRuns stableSort threeBuilds) ∧
      ∀ sort', SortsByStart sort' →
        compactRuns sort' (compactRuns stableSort threeBuilds) = compactRuns stableSort threeBuilds :=
  compactRuns_finished stableSort_sorts (by decide) (by decide)

example : (compactRuns stableSort threeBuilds).map (fun r => (r.pid, r.startTimeUs, r.endTimeUs)) =
    [(7, 1002000, 1002500), (1, 1000, 2000), (2, 2000, 2000), (3, 2000, 1002000)] := by decide

end Bdtrace
