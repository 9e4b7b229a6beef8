import Bdtrace.Types
import Bdtrace.General.GapClosing
import Std.Data.TreeMap.Lemmas
import Mathlib.Data.List.Perm.Basic
import Mathlib.Data.List.Sort

/-! `compact_runs`: the idle time between the runs of a trace is taken out of the times that are shown. -/
namespace Bdtrace
open Std (TreeMap)

/-- One second. -/
def gapThresholdUs : Int := 1000000

/-- The records of a run in the order of their starts, with the earliest start and the latest end. -/
structure CompactRun where
  procs : List ProcessRecord
  minStart : Int
  maxEnd : Int
  deriving DecidableEq, Repr

def CompactRun.begin (r : ProcessRecord) : CompactRun := ⟨[r], r.startTimeUs, r.endTimeUs⟩

/-- The run boundaries, where `cur` is the run so far. -/
def splitRuns : CompactRun → List ProcessRecord → List CompactRun
  | cur, [] => [cur]
  | cur, r :: rest =>
    if r.startTimeUs > cur.maxEnd + gapThresholdUs then cur :: splitRuns (.begin r) rest
    else splitRuns { cur with procs := cur.procs ++ [r], maxEnd := max cur.maxEnd r.endTimeUs } rest

/-- The shift of each pid from the second run on, after a run that ended at `prevEnd`. -/
def runShifts : Int → Int → List CompactRun → TreeMap Int Int → TreeMap Int Int
  | _, _, [], shift => shift
  | cumulativeGap, prevEnd, run :: runs, shift =>
    let cumulativeGap := cumulativeGap + (run.minStart - prevEnd)
    runShifts cumulativeGap run.maxEnd runs (run.procs.foldl (fun m r => m.insert r.pid cumulativeGap) shift)

def ProcessRecord.shiftBy (r : ProcessRecord) (gap : Int) : ProcessRecord :=
  { r with startTimeUs := r.startTimeUs - gap, endTimeUs := r.endTimeUs - gap }

/-- `compact_runs`. `sort` is `std::sort` by the start time, which may order equal starts as it likes. -/
def compactRuns (sort : List ProcessRecord → List ProcessRecord) (procs : List ProcessRecord) : List ProcessRecord :=
  if procs.length ≤ 1 then procs
  else match sort procs with
    | [] => procs
    | first :: rest =>
      match splitRuns (.begin first) rest with
      | [] | [_] => procs
      | run :: runs =>
        let shift := runShifts 0 run.maxEnd runs ∅
        procs.map fun r => match shift[r.pid]? with
          | none => r
          | some gap => r.shiftBy gap

/-- What `std::sort` by the start time promises. -/
structure SortsByStart (sort : List ProcessRecord → List ProcessRecord) : Prop where
  perm : ∀ procs, (sort procs).Perm procs
  sorted : ∀ procs, (sort procs).Pairwise fun a b => a.startTimeUs ≤ b.startTimeUs

/-- A sort that keeps equal starts in their order. -/
def stableSort (procs : List ProcessRecord) : List ProcessRecord :=
  procs.insertionSort fun a b => a.startTimeUs ≤ b.startTimeUs

theorem stableSort_sorts : SortsByStart stableSort := by
  refine ⟨fun procs => List.perm_insertionSort _ _, fun procs => ?_⟩
  have : Std.Total fun a b : ProcessRecord => a.startTimeUs ≤ b.startTimeUs := ⟨fun a b => Int.le_total _ _⟩
  have : IsTrans ProcessRecord fun a b => a.startTimeUs ≤ b.startTimeUs := ⟨fun a b c => Int.le_trans⟩
  exact List.pairwise_insertionSort _ _

/-! ### Idle time -/

/-- The gaps of more than a second up to a process, each between a start and the latest end since the gap
before it; `busyUntil` is that end for the processes already passed. -/
def idleFrom : Int → List ProcessRecord → Int → Int
  | _, [], _ => 0
  | busyUntil, r :: rest, pid =>
    let gap := if r.startTimeUs > busyUntil + gapThresholdUs then r.startTimeUs - busyUntil else 0
    let busyUntil := if r.startTimeUs > busyUntil + gapThresholdUs then r.endTimeUs else max busyUntil r.endTimeUs
    gap + if r.pid = pid then 0 else idleFrom busyUntil rest pid

/-- The idle time before a process in a list that is sorted by start. -/
def idleBefore (sorted : List ProcessRecord) (pid : Int) : Int :=
  match sorted with
  | [] => 0
  | first :: rest => if first.pid = pid then 0 else idleFrom first.endTimeUs rest pid

theorem splitRuns_procs (cur : CompactRun) (rest : List ProcessRecord) :
    (splitRuns cur rest).flatMap (·.procs) = cur.procs ++ rest := by
  induction rest generalizing cur with
  | nil => simp [splitRuns]
  | cons r rest ih =>
    rw [splitRuns]
    split
    · rw [List.flatMap_cons, ih]
      rfl
    · rw [ih]
      simp

/-- The first run starts with the current one and has its start. -/
theorem splitRuns_cons (cur : CompactRun) (rest : List ProcessRecord) :
    ∃ run runs, splitRuns cur rest = run :: runs ∧ cur.procs <+: run.procs ∧ run.minStart = cur.minStart := by
  induction rest generalizing cur with
  | nil => exact ⟨cur, [], rfl, List.prefix_rfl, rfl⟩
  | cons r rest ih =>
    rw [splitRuns]
    split
    · exact ⟨cur, _, rfl, List.prefix_rfl, rfl⟩
    · obtain ⟨run, runs, heq, hpre, hmin⟩ :=
        ih { cur with procs := cur.procs ++ [r], maxEnd := max cur.maxEnd r.endTimeUs }
      exact ⟨run, runs, heq, (List.prefix_append _ _).trans hpre, hmin⟩

private theorem getElem?_foldl_insert (rs : List ProcessRecord) (gap : Int) (m : TreeMap Int Int) (pid : Int) :
    (rs.foldl (fun m r => m.insert r.pid gap) m)[pid]? = if pid ∈ rs.map (·.pid) then some gap else m[pid]? := by
  induction rs generalizing m with
  | nil => simp
  | cons r rs ih =>
    rw [List.foldl_cons, ih, Std.TreeMap.getElem?_insert, List.map_cons]
    by_cases hmem : pid ∈ rs.map (·.pid)
    · simp [hmem]
    · by_cases heq : r.pid = pid
      · simp [heq]
      · simp [hmem, heq, Ne.symm heq]

private theorem runShifts_other (runs : List CompactRun) (c e : Int) (m : TreeMap Int Int) (pid : Int)
    (h : pid ∉ (runs.flatMap (·.procs)).map (·.pid)) : (runShifts c e runs m)[pid]? = m[pid]? := by
  induction runs generalizing c e m with
  | nil => rfl
  | cons run runs ih =>
    rw [List.flatMap_cons, List.map_append, List.mem_append, not_or] at h
    rw [runShifts, ih _ _ _ h.2, getElem?_foldl_insert, if_neg h.1]

/-- A pid of the first run is in no later one. -/
private theorem not_mem_later {cur run : CompactRun} {rest : List ProcessRecord} {runs : List CompactRun}
    (hnd : ((cur.procs ++ rest).map (·.pid)).Nodup) (h : splitRuns cur rest = run :: runs) {pid : Int}
    (hpid : pid ∈ run.procs.map (·.pid)) : pid ∉ (runs.flatMap (·.procs)).map (·.pid) := by
  rw [← splitRuns_procs, h, List.flatMap_cons, List.map_append, List.nodup_append] at hnd
  exact fun hlater => hnd.2.2 pid hpid pid hlater rfl

/-- The map gives a process the idle time before it, unless it is still in the first run; then there is none. -/
private theorem runShifts_splitRuns (rest : List ProcessRecord) {cur run : CompactRun} {runs : List CompactRun}
    (hnd : ((cur.procs ++ rest).map (·.pid)).Nodup) (h : splitRuns cur rest = run :: runs) (c : Int)
    (m : TreeMap Int Int) {pid : Int} (hpid : pid ∈ rest.map (·.pid)) :
    (pid ∈ run.procs.map (·.pid) → (runShifts c run.maxEnd runs m)[pid]? = m[pid]? ∧ idleFrom cur.maxEnd rest pid = 0) ∧
      (pid ∉ run.procs.map (·.pid) →
        (runShifts c run.maxEnd runs m)[pid]? = some (c + idleFrom cur.maxEnd rest pid)) := by
  induction rest generalizing cur run runs c m with
  | nil => simp at hpid
  | cons r rest ih =>
    have hwhole := hnd
    rw [List.map_append, List.map_cons, List.nodup_append, List.nodup_cons] at hnd
    obtain ⟨hcur, ⟨hr, hrest⟩, hapart⟩ := hnd
    rw [splitRuns] at h
    split at h
    · rename_i hgap
      obtain ⟨rfl, hruns⟩ := List.cons.inj h
      obtain ⟨run₂, runs₂, hsplit, hpre, hmin⟩ := splitRuns_cons (.begin r) rest
      obtain rfl := hruns.symm.trans hsplit
      have hnd₂ : (((CompactRun.begin r).procs ++ rest).map (·.pid)).Nodup := List.nodup_cons.mpr ⟨hr, hrest⟩
      have hout : pid ∉ cur.procs.map (·.pid) := fun hin => hapart pid hin pid hpid rfl
      refine ⟨fun hin => absurd hin hout, fun _ => ?_⟩
      have hin : ∀ {x : Int}, x ∈ run₂.procs.map (·.pid) →
          (run₂.procs.foldl (fun m r => m.insert r.pid (c + (run₂.minStart - cur.maxEnd))) m)[x]? =
            some (c + (run₂.minStart - cur.maxEnd)) := fun hx => by
        rw [getElem?_foldl_insert, if_pos hx]
      rw [runShifts, idleFrom, if_pos hgap, if_pos hgap]
      have hstart : run₂.minStart = r.startTimeUs := hmin
      by_cases hself : r.pid = pid
      · subst hself
        have hmem : r.pid ∈ run₂.procs.map (·.pid) := List.mem_map_of_mem (hpre.subset List.mem_cons_self)
        rw [runShifts_other _ _ _ _ _ (not_mem_later hnd₂ hsplit hmem), hin hmem, if_pos rfl, hstart, Int.add_zero]
      · have hpid' : pid ∈ rest.map (·.pid) := (List.mem_cons.mp hpid).resolve_left (Ne.symm hself)
        obtain ⟨hfirst, hlater⟩ := ih hnd₂ hsplit (c + (run₂.minStart - cur.maxEnd))
          (run₂.procs.foldl (fun m r => m.insert r.pid (c + (run₂.minStart - cur.maxEnd))) m) hpid'
        have hend : (CompactRun.begin r).maxEnd = r.endTimeUs := rfl
        rw [if_neg hself, ← hstart]
        by_cases hmem : pid ∈ run₂.procs.map (·.pid)
        · obtain ⟨heq, hzero⟩ := hfirst hmem
          rw [hend] at hzero
          rw [heq, hin hmem, hzero, Int.add_zero]
        · rw [hlater hmem, hend, Int.add_assoc]
    · rename_i hgap
      obtain ⟨run', runs', hsplit, hpre, -⟩ :=
        splitRuns_cons { cur with procs := cur.procs ++ [r], maxEnd := max cur.maxEnd r.endTimeUs } rest
      obtain ⟨rfl, rfl⟩ := List.cons.inj (h.symm.trans hsplit)
      have hnd' : (((cur.procs ++ [r]) ++ rest).map (·.pid)).Nodup := by
        rw [List.append_assoc]
        exact hwhole
      rw [idleFrom, if_neg hgap, if_neg hgap, Int.zero_add]
      by_cases hself : r.pid = pid
      · subst hself
        have hmem : r.pid ∈ run.procs.map (·.pid) :=
          List.mem_map_of_mem (hpre.subset (List.mem_append_right _ (List.mem_singleton_self r)))
        exact ⟨fun _ => ⟨runShifts_other _ _ _ _ _ (not_mem_later hnd' hsplit hmem), if_pos rfl⟩,
          fun hno => absurd hmem hno⟩
      · have hpid' : pid ∈ rest.map (·.pid) := (List.mem_cons.mp hpid).resolve_left (Ne.symm hself)
        rw [if_neg hself]
        exact ih hnd' hsplit c m hpid'

theorem ProcessRecord.shiftBy_zero (r : ProcessRecord) : r.shiftBy 0 = r := by
  simp [ProcessRecord.shiftBy]

/-- Each record is shifted by the idle time before it. -/
theorem compactRuns_eq {sort : List ProcessRecord → List ProcessRecord} (hsort : SortsByStart sort)
    {procs : List ProcessRecord} (hnd : (procs.map (·.pid)).Nodup) :
    compactRuns sort procs = procs.map fun r => r.shiftBy (idleBefore (sort procs) r.pid) := by
  have hunmoved : (∀ r ∈ procs, idleBefore (sort procs) r.pid = 0) →
      procs = procs.map fun r => r.shiftBy (idleBefore (sort procs) r.pid) := fun hzero => by
    conv_lhs => rw [← List.map_id procs]
    exact List.map_congr_left fun r hr => by rw [hzero r hr, r.shiftBy_zero, id]
  rw [compactRuns]
  have hperm := hsort.perm procs
  split
  · rename_i hlen
    apply hunmoved
    intro r hr
    rw [← hperm.length_eq] at hlen
    rcases hs : sort procs with _ | ⟨first, rest⟩
    · rfl
    · rw [hs] at hlen
      obtain rfl : rest = [] := List.eq_nil_of_length_eq_zero (by simpa using hlen)
      rw [idleBefore, idleFrom, ite_self]
  · cases hs : sort procs with
    | nil =>
      rw [hs] at hunmoved
      exact hunmoved fun r _ => rfl
    | cons first rest =>
      rw [hs] at hperm hunmoved
      have hnd' : (((CompactRun.begin first).procs ++ rest).map (·.pid)).Nodup := (hperm.map _).nodup_iff.mpr hnd
      obtain ⟨run, runs, hsplit, hpre, -⟩ := splitRuns_cons (.begin first) rest
      have hshift : ∀ r ∈ procs, (runShifts 0 run.maxEnd runs ∅)[r.pid]?.getD 0 = idleBefore (first :: rest) r.pid := by
        intro r hr
        rw [idleBefore]
        split
        · rename_i hself
          have hmem : r.pid ∈ run.procs.map (·.pid) := hself ▸ List.mem_map_of_mem (hpre.subset List.mem_cons_self)
          rw [runShifts_other _ _ _ _ _ (not_mem_later hnd' hsplit hmem), Std.TreeMap.getElem?_emptyc, Option.getD_none]
        · rename_i hself
          have hmem : r.pid ∈ (first :: rest).map (·.pid) := (hperm.map _).mem_iff.mpr (List.mem_map_of_mem hr)
          have hpid : r.pid ∈ rest.map (·.pid) := (List.mem_cons.mp hmem).resolve_left (Ne.symm hself)
          obtain ⟨hfirst, hlater⟩ := runShifts_splitRuns rest hnd' hsplit 0 ∅ hpid
          by_cases hrun : r.pid ∈ run.procs.map (·.pid)
          · obtain ⟨heq, hzero⟩ := hfirst hrun
            rw [heq, Std.TreeMap.getElem?_emptyc, Option.getD_none]
            exact hzero.symm
          · rw [hlater hrun, Option.getD_some, Int.zero_add]
            rfl
      simp only [hsplit]
      cases runs with
      | nil => exact hunmoved fun r hr => (hshift r hr).symm.trans (by simp [runShifts])
      | cons run₂ runs =>
        apply List.map_congr_left
        intro r hr
        rw [← hshift r hr]
        split
        · rename_i hnone
          rw [hnone, Option.getD_none, r.shiftBy_zero]
        · rename_i gap hsome
          rw [hsome, Option.getD_some]

/-! ### The scan -/

/-- The records in the order of their starts, each with its shift. -/
def shifts (sort : List ProcessRecord → List ProcessRecord) (procs : List ProcessRecord) : List (ProcessRecord × Int) :=
  GapClosing.placed (·.startTimeUs) (·.endTimeUs) gapThresholdUs (sort procs)

private theorem place_eq (c busyUntil : Int) {rest : List ProcessRecord} (hnd : (rest.map (·.pid)).Nodup) :
    GapClosing.place (·.startTimeUs) (·.endTimeUs) gapThresholdUs ⟨c, busyUntil⟩ rest =
      rest.map fun r => (r, c + idleFrom busyUntil rest r.pid) := by
  induction rest generalizing c busyUntil with
  | nil => rfl
  | cons r rest ih =>
    rw [List.map_cons, List.nodup_cons] at hnd
    have hother : ∀ q ∈ rest, r.pid ≠ q.pid := fun q hq heq => hnd.1 (heq ▸ List.mem_map_of_mem hq)
    rw [GapClosing.place, GapClosing.advance, List.map_cons]
    split
    · rename_i hgap
      rw [ih _ _ hnd.2, idleFrom, if_pos hgap, if_pos rfl, Int.add_zero]
      refine congrArg _ (List.map_congr_left fun q hq => ?_)
      rw [idleFrom, if_pos hgap, if_pos hgap, if_neg (hother q hq), Int.add_assoc]
    · rename_i hgap
      rw [ih _ _ hnd.2, idleFrom, if_neg hgap, if_pos rfl, Int.add_zero, Int.add_zero]
      refine congrArg _ (List.map_congr_left fun q hq => ?_)
      rw [idleFrom, if_neg hgap, if_neg hgap, if_neg (hother q hq), Int.zero_add]

section Shifts
variable {sort : List ProcessRecord → List ProcessRecord} (hsort : SortsByStart sort) {procs : List ProcessRecord}
  (hnd : (procs.map (·.pid)).Nodup)
include hsort hnd

theorem shifts_eq : shifts sort procs = (sort procs).map fun r => (r, idleBefore (sort procs) r.pid) := by
  have hsorted : ((sort procs).map (·.pid)).Nodup := ((hsort.perm procs).map _).nodup_iff.mpr hnd
  rw [shifts]
  generalize sort procs = sorted at hsorted ⊢
  cases sorted with
  | nil => rfl
  | cons first rest =>
    rw [List.map_cons, List.nodup_cons] at hsorted
    rw [GapClosing.placed, place_eq _ _ hsorted.2, List.map_cons, idleBefore, if_pos rfl]
    refine congrArg _ (List.map_congr_left fun q hq => ?_)
    have hother : first.pid ≠ q.pid := fun heq => hsorted.1 (heq ▸ List.mem_map_of_mem hq)
    rw [idleBefore, if_neg hother, Int.zero_add]

/-- A record stands beside what the idle time before it makes of it. -/
theorem mem_zip_iff {p : ProcessRecord × ProcessRecord} : p ∈ procs.zip (compactRuns sort procs) ↔
    p.1 ∈ procs ∧ p.2 = p.1.shiftBy (idleBefore (sort procs) p.1.pid) := by
  rw [compactRuns_eq hsort hnd, ← List.map_prod_left_eq_zip, List.mem_map]
  constructor
  · rintro ⟨r, hr, rfl⟩
    exact ⟨hr, rfl⟩
  · rintro ⟨hr, heq⟩
    exact ⟨p.1, hr, Prod.ext rfl heq.symm⟩

theorem mem_zip_compactRuns {p : ProcessRecord × ProcessRecord} :
    p ∈ procs.zip (compactRuns sort procs) ↔ ∃ x ∈ shifts sort procs, p = (x.1, x.1.shiftBy x.2) := by
  rw [mem_zip_iff hsort hnd, shifts_eq hsort hnd]
  constructor
  · rintro ⟨hr, heq⟩
    exact ⟨_, List.mem_map_of_mem ((hsort.perm procs).mem_iff.mpr hr), Prod.ext rfl heq⟩
  · rintro ⟨x, hx, rfl⟩
    obtain ⟨r, hr, rfl⟩ := List.mem_map.mp hx
    exact ⟨(hsort.perm procs).mem_iff.mp hr, rfl⟩

end Shifts

end Bdtrace
