import Bdtrace.General.Tallies
import Bdtrace.View.Diagnostics
import Bdtrace.View.RebuildSearch
import Bdtrace.Web.ProcessEndpoints
import Mathlib.Data.List.Sort
import Mathlib.Data.Prod.Lex

/-! The comparison of two builds. -/
namespace Bdtrace
open Std (TreeMap TreeSet)

structure TimeChange where
  durUs : Int
  cmd : Str
  deriving DecidableEq, Repr

/-- The numbers that `bdview diff` prints. -/
structure BuildDiff where
  total1 : Int
  total2 : Int
  diffTime : Int
  processes1 : Int
  processes2 : Int
  processesDiff : Int
  accesses1 : Int
  accesses2 : Int
  accessesDiff : Int
  changes : List TimeChange
  newCount : Nat
  removedCount : Nat
  deriving DecidableEq, Repr

/-- From the earliest start to the latest end, or to zero if no end is later than that. -/
def buildTime (procs : List ProcessRecord) : Int := int64 ((procs.map (·.endTimeUs)).foldl max 0 - spanStart procs)

/-- The duration of a command in its last run that has ended. -/
def durations (procs : List ProcessRecord) : TreeMap Str Int :=
  procs.foldl (fun dur r => if r.endTimeUs > 0 then dur.insert r.cmdline r.durationUs else dur) ∅

def commands (procs : List ProcessRecord) : TreeSet Str := procs.foldl (fun cmds r => cmds.insert r.cmdline) ∅

/-- An entry of `diffs`, for a command with another duration in the first build. -/
def timeDiff (dur1 : TreeMap Str Int) (e : Str × Int) : Option (Int ×ₗ Str) :=
  dur1[e.1]?.bind fun before =>
    let d := int64 (e.2 - before)
    if d ≠ 0 then some (toLex (if d < 0 then d else -d, e.1)) else none

/-- `diffs` after it is sorted. -/
def timeDiffs (dur1 dur2 : TreeMap Str Int) : List (Int ×ₗ Str) :=
  (dur2.toList.filterMap (timeDiff dur1)).insertionSort (· ≤ ·)

/-- The line for an entry of `diffs`. -/
def printedChange (dur1 dur2 : TreeMap Str Int) (e : Int ×ₗ Str) : TimeChange :=
  ⟨int64 (dur2.getD (ofLex e).2 0 - dur1.getD (ofLex e).2 0), (ofLex e).2⟩

/-- The number of commands in the second set that are not in the first. -/
def newCommands (cmds1 cmds2 : TreeSet Str) : Nat := (cmds2.toList.filter fun cmd => !cmds1.contains cmd).length

/-- `cmd_diff`. -/
def cmdDiff (t1 t2 : Tables) : BuildDiff where
  total1 := buildTime t1.allProcesses
  total2 := buildTime t2.allProcesses
  diffTime := int64 (buildTime t2.allProcesses - buildTime t1.allProcesses)
  processes1 := int32 t1.allProcesses.length
  processes2 := int32 t2.allProcesses.length
  processesDiff := int32 (int32 t2.allProcesses.length - int32 t1.allProcesses.length)
  accesses1 := int32 t1.fileAccesses.length
  accesses2 := int32 t2.fileAccesses.length
  accessesDiff := int32 (int32 t2.fileAccesses.length - int32 t1.fileAccesses.length)
  changes := ((timeDiffs (durations t1.allProcesses) (durations t2.allProcesses)).take 10).map
    (printedChange (durations t1.allProcesses) (durations t2.allProcesses))
  newCount := newCommands (commands t1.allProcesses) (commands t2.allProcesses)
  removedCount := newCommands (commands t2.allProcesses) (commands t1.allProcesses)

/-! ### The durations of commands -/

/-- The runs of a command that have ended, in the order of their starts. -/
def endedRuns (procs : List ProcessRecord) (cmd : Str) : List ProcessRecord :=
  procs.filter fun r => r.endTimeUs > 0 ∧ r.cmdline = cmd

private theorem getElem?_durations (procs : List ProcessRecord) (cmd : Str) :
    (durations procs)[cmd]? = (endedRuns procs cmd).getLast?.map (·.durationUs) := by
  induction procs using List.reverseRecOn with
  | nil => exact TreeMap.getElem?_emptyc
  | append_singleton procs r ih =>
    have hstep : durations (procs ++ [r]) =
        if r.endTimeUs > 0 then (durations procs).insert r.cmdline r.durationUs else durations procs := by
      rw [durations, List.foldl_append, List.foldl_cons, List.foldl_nil, durations]
    rw [hstep, endedRuns, List.filter_append, ← endedRuns, List.filter_singleton]
    by_cases hended : r.endTimeUs > 0
    · rw [if_pos hended, TreeMap.getElem?_insert, ih]
      by_cases hcmd : r.cmdline = cmd
      · simp [hended, hcmd]
      · simp [hcmd]
    · rw [if_neg hended, ih]
      simp [hended]

/-- Times whose differences, and the differences of these, are 64-bit numbers. -/
def Tables.TimesFit (t : Tables) : Prop :=
  ∀ r ∈ t.processes, 0 ≤ r.startTimeUs ∧ r.startTimeUs < 2 ^ 62 ∧ 0 ≤ r.endTimeUs ∧ r.endTimeUs < 2 ^ 62

/-- The last run of a command that has ended took so long. -/
def Tables.Lasts (t : Tables) (cmd : Str) (dur : Int) : Prop :=
  ∃ r, (endedRuns t.allProcesses cmd).getLast? = some r ∧ dur = r.endTimeUs - r.startTimeUs

/-- The last ended run of a command took so much longer in the second build, or so much shorter. -/
def Changes (t1 t2 : Tables) (cmd : Str) (d : Int) : Prop :=
  d ≠ 0 ∧ ∃ dur1 dur2, t1.Lasts cmd dur1 ∧ t2.Lasts cmd dur2 ∧ d = dur2 - dur1

theorem Changes.swap {t1 t2 : Tables} {cmd : Str} {d : Int} (h : Changes t1 t2 cmd d) : Changes t2 t1 cmd (-d) := by
  obtain ⟨hne, dur1, dur2, h1, h2, rfl⟩ := h
  exact ⟨by omega, dur2, dur1, h2, h1, by omega⟩

theorem Changes.unique {t1 t2 : Tables} {cmd : Str} {d d' : Int} (h : Changes t1 t2 cmd d) (h' : Changes t1 t2 cmd d') :
    d = d' := by
  obtain ⟨-, _, _, ⟨r1, hr1, rfl⟩, ⟨r2, hr2, rfl⟩, rfl⟩ := h
  obtain ⟨-, _, _, ⟨r1', hr1', rfl⟩, ⟨r2', hr2', rfl⟩, rfl⟩ := h'
  obtain rfl := Option.some.inj (hr1.symm.trans hr1')
  obtain rfl := Option.some.inj (hr2.symm.trans hr2')
  rfl

section Durations
variable {t : Tables} (ht : t.TimesFit)
include ht

private theorem getElem?_durations_iff {cmd : Str} {dur : Int} :
    (durations t.allProcesses)[cmd]? = some dur ↔ t.Lasts cmd dur := by
  have hexact : ∀ r, (endedRuns t.allProcesses cmd).getLast? = some r → r.durationUs = r.endTimeUs - r.startTimeUs := by
    intro r hr
    have hin := (mem_allProcesses r).mp (List.mem_of_mem_filter (List.mem_of_getLast? hr))
    obtain ⟨h0, h1, h2, h3⟩ := ht r hin
    exact int64_of_range (by omega) (by omega)
  rw [getElem?_durations, Option.map_eq_some_iff]
  constructor
  · rintro ⟨r, hr, rfl⟩
    exact ⟨r, hr, hexact r hr⟩
  · rintro ⟨r, hr, rfl⟩
    exact ⟨r, hr, hexact r hr⟩

private theorem Tables.Lasts.bounds {cmd : Str} {dur : Int} (h : t.Lasts cmd dur) : -2 ^ 62 < dur ∧ dur < 2 ^ 62 := by
  obtain ⟨r, hr, rfl⟩ := h
  have hin := (mem_allProcesses r).mp (List.mem_of_mem_filter (List.mem_of_getLast? hr))
  obtain ⟨h0, h1, h2, h3⟩ := ht r hin
  omega

private theorem buildTime_bounds : -2 ^ 62 < buildTime t.allProcesses ∧ buildTime t.allProcesses < 2 ^ 62 := by
  have hfit := fun r hr => ht r ((mem_allProcesses r).mp hr)
  have hstart : 0 ≤ spanStart t.allProcesses ∧ spanStart t.allProcesses < 2 ^ 62 := by
    by_cases hne : t.allProcesses = []
    · rw [hne]
      decide
    · obtain ⟨⟨r, hr, hspan⟩, -⟩ := span_attained hne
      obtain ⟨h0, h1, -⟩ := hfit r hr
      omega
  have hlast : 0 ≤ (t.allProcesses.map (·.endTimeUs)).foldl max 0 ∧
      (t.allProcesses.map (·.endTimeUs)).foldl max 0 < 2 ^ 62 := by
    rcases Tables.foldl_max_mem (t.allProcesses.map (·.endTimeUs)) 0 with hzero | hin
    · omega
    · obtain ⟨r, hr, hend⟩ := List.mem_map.mp hin
      obtain ⟨-, -, h2, h3⟩ := hfit r hr
      omega
  rw [buildTime, int64_of_range (by omega) (by omega)]
  omega

end Durations

/-! ### The greatest changes -/

section Changes
variable {t1 t2 : Tables} (h1 : t1.TimesFit) (h2 : t2.TimesFit)
include h1 h2

private theorem int64_change {cmd : Str} {dur1 dur2 : Int} (hdur1 : t1.Lasts cmd dur1) (hdur2 : t2.Lasts cmd dur2) :
    int64 (dur2 - dur1) = dur2 - dur1 := by
  have hbounds1 := hdur1.bounds h1
  have hbounds2 := hdur2.bounds h2
  exact int64_of_range (by omega) (by omega)

private theorem mem_timeDiffs {e : Int ×ₗ Str} : e ∈ timeDiffs (durations t1.allProcesses) (durations t2.allProcesses) ↔
    ∃ d, Changes t1 t2 (ofLex e).2 d ∧ (ofLex e).1 = -|d| := by
  have habs : ∀ d : Int, (if d < 0 then d else -d) = -|d| := by
    intro d
    split
    · rename_i hneg
      rw [abs_of_neg hneg, neg_neg]
    · rename_i hpos
      rw [abs_of_nonneg (not_lt.mp hpos)]
  rw [timeDiffs, List.mem_insertionSort, List.mem_filterMap]
  constructor
  · rintro ⟨⟨cmd, dur2⟩, hdur2, hdiff⟩
    obtain ⟨dur1, hdur1, hsome⟩ := Option.bind_eq_some_iff.mp hdiff
    rw [TreeMap.mem_toList_iff_getElem?_eq_some, getElem?_durations_iff h2] at hdur2
    rw [getElem?_durations_iff h1] at hdur1
    obtain ⟨hne, heq⟩ := Option.ite_none_right_eq_some.mp hsome
    rw [int64_change h1 h2 hdur1 hdur2] at hne heq
    obtain rfl := Option.some.inj heq
    exact ⟨dur2 - dur1, ⟨hne, dur1, dur2, hdur1, hdur2, rfl⟩, habs _⟩
  · rintro ⟨d, ⟨hne, dur1, dur2, hdur1, hdur2, rfl⟩, heq⟩
    refine ⟨((ofLex e).2, dur2), ?_, Option.bind_eq_some_iff.mpr ⟨dur1, (getElem?_durations_iff h1).mpr hdur1, ?_⟩⟩
    · rw [TreeMap.mem_toList_iff_getElem?_eq_some, getElem?_durations_iff h2]
      exact hdur2
    · simp only [int64_change h1 h2 hdur1 hdur2]
      rw [if_pos hne, habs, ← heq]
      rfl

omit h1 h2 in
/-- No command is listed twice. -/
private theorem nodup_timeDiffs (dur1 dur2 : TreeMap Str Int) :
    ((timeDiffs dur1 dur2).map fun e => (ofLex e).2).Nodup := by
  have hsub : ∀ l : List (Str × Int), ((l.filterMap (timeDiff dur1)).map fun e => (ofLex e).2).Sublist
      (l.map Prod.fst) := by
    intro l
    induction l with
    | nil => exact List.Sublist.slnil
    | cons e l ih =>
      rw [List.filterMap_cons]
      cases hdiff : timeDiff dur1 e with
      | none => exact ih.cons _
      | some x =>
        obtain ⟨before, -, hsome⟩ := Option.bind_eq_some_iff.mp hdiff
        obtain ⟨-, heq⟩ := Option.ite_none_right_eq_some.mp hsome
        obtain rfl := Option.some.inj heq
        exact ih.cons_cons _
  rw [timeDiffs, ((List.perm_insertionSort _ _).map _).nodup_iff]
  refine List.Nodup.sublist (hsub _) ?_
  rw [TreeMap.map_fst_toList_eq_keys]
  exact TreeMap.nodup_keys

omit h1 h2 in
private theorem timeDiffs_ascending (dur1 dur2 : TreeMap Str Int) : (timeDiffs dur1 dur2).Pairwise (· < ·) := by
  have hsorted : (timeDiffs dur1 dur2).Pairwise (· ≤ ·) := List.pairwise_insertionSort _ _
  exact (hsorted.and (List.Nodup.of_map _ (nodup_timeDiffs dur1 dur2))).imp fun h => lt_of_le_of_ne h.1 h.2

/-- Compared the other way round, the same commands have changed by as much. -/
private theorem timeDiffs_swap : timeDiffs (durations t2.allProcesses) (durations t1.allProcesses) =
    timeDiffs (durations t1.allProcesses) (durations t2.allProcesses) := by
  refine (timeDiffs_ascending _ _).eq_of_mem_iff (timeDiffs_ascending _ _) fun e => ?_
  rw [mem_timeDiffs h2 h1, mem_timeDiffs h1 h2]
  constructor
  · rintro ⟨d, hd, heq⟩
    exact ⟨-d, hd.swap, by rw [heq, abs_neg]⟩
  · rintro ⟨d, hd, heq⟩
    exact ⟨-d, hd.swap, by rw [heq, abs_neg]⟩

/-- The change that is printed. -/
private theorem printed_change {e : Int ×ₗ Str}
    (he : e ∈ timeDiffs (durations t1.allProcesses) (durations t2.allProcesses)) :
    ∃ d, Changes t1 t2 (ofLex e).2 d ∧ (ofLex e).1 = -|d| ∧
      printedChange (durations t1.allProcesses) (durations t2.allProcesses) e = ⟨d, (ofLex e).2⟩ := by
  obtain ⟨d, ⟨hne, dur1, dur2, hdur1, hdur2, rfl⟩, heq⟩ := (mem_timeDiffs h1 h2).mp he
  refine ⟨_, ⟨hne, dur1, dur2, hdur1, hdur2, rfl⟩, heq, ?_⟩
  rw [printedChange, TreeMap.getD_eq_getD_getElem?, TreeMap.getD_eq_getD_getElem?,
    (getElem?_durations_iff h1).mpr hdur1,
    (getElem?_durations_iff h2).mpr hdur2, Option.getD_some, Option.getD_some, int64_change h1 h2 hdur1 hdur2]

end Changes

/-! ### The comparison -/

/-- A greater change, or one as great and the smaller command. -/
def TimeChange.Before (a b : TimeChange) : Prop := |b.durUs| < |a.durUs| ∨ |a.durUs| = |b.durUs| ∧ a.cmd < b.cmd

/-- What is the same, seen from the other build. -/
def BuildDiff.swapped (d : BuildDiff) : BuildDiff where
  total1 := d.total2
  total2 := d.total1
  diffTime := -d.diffTime
  processes1 := d.processes2
  processes2 := d.processes1
  processesDiff := -d.processesDiff
  accesses1 := d.accesses2
  accesses2 := d.accesses1
  accessesDiff := -d.accessesDiff
  changes := d.changes.map fun c => ⟨-c.durUs, c.cmd⟩
  newCount := d.removedCount
  removedCount := d.newCount

/-- The commands of a build. -/
def Tables.cmdlines (t : Tables) : List Str := (t.processes.map (·.cmdline)).dedup

/-- The ten greatest changes are listed from the greatest on, and the commands of one build only are counted. -/
structure ComparesBuilds (d : BuildDiff) (t1 t2 : Tables) : Prop where
  changed : ∀ c ∈ d.changes, Changes t1 t2 c.cmd c.durUs
  ranked : d.changes.Pairwise TimeChange.Before
  others : ∀ cmd dur, Changes t1 t2 cmd dur → cmd ∉ d.changes.map (·.cmd) →
    d.changes.length = 10 ∧ ∀ c ∈ d.changes, c.Before ⟨dur, cmd⟩
  added : d.newCount = (t2.cmdlines.filter fun cmd => cmd ∉ t1.cmdlines).length
  removed : d.removedCount = (t1.cmdlines.filter fun cmd => cmd ∉ t2.cmdlines).length

private theorem mem_commands {t : Tables} {cmd : Str} : cmd ∈ commands t.allProcesses ↔ cmd ∈ t.cmdlines := by
  have hmap : commands t.allProcesses = (t.allProcesses.map (·.cmdline)).foldl (fun s cmd => s.insert cmd) ∅ :=
    List.foldl_map.symm
  rw [hmap, DependencyGraph.mem_foldl_insert, or_iff_left TreeSet.not_mem_emptyc, Tables.cmdlines,
    List.mem_dedup, List.mem_map,
    List.mem_map]
  simp only [mem_allProcesses]

private theorem newCommands_eq (t1 t2 : Tables) : newCommands (commands t1.allProcesses) (commands t2.allProcesses) =
    (t2.cmdlines.filter fun cmd => cmd ∉ t1.cmdlines).length := by
  have hperm : (commands t2.allProcesses).toList.Perm t2.cmdlines := by
    have hset : (commands t2.allProcesses).toList.Nodup := DependencyGraph.nodup_toList _
    have hlist : t2.cmdlines.Nodup := List.nodup_dedup _
    apply (List.perm_ext_iff_of_nodup hset hlist).mpr
    intro cmd
    rw [TreeSet.mem_toList, mem_commands]
  rw [newCommands, ← (hperm.filter _).length_eq]
  congr 1
  apply List.filter_congr
  intro cmd _
  rw [Bool.eq_iff_iff, decide_eq_true_eq, Bool.not_eq_true', ← mem_commands, TreeSet.mem_iff_contains, Bool.not_eq_true]

section Comparison
variable {t1 t2 : Tables} (h1 : t1.TimesFit) (h2 : t2.TimesFit)
include h1 h2

private theorem compares_builds : ComparesBuilds (cmdDiff t1 t2) t1 t2 := by
  obtain ⟨diffs, hdiffs⟩ : ∃ diffs, diffs = timeDiffs (durations t1.allProcesses) (durations t2.allProcesses) :=
    ⟨_, rfl⟩
  have hascending : diffs.Pairwise (· < ·) := hdiffs ▸ timeDiffs_ascending _ _
  have hprinted := fun e (he : e ∈ diffs.take 10) => printed_change h1 h2 (hdiffs ▸ List.mem_of_mem_take he)
  have hchanges : (cmdDiff t1 t2).changes =
      (diffs.take 10).map (printedChange (durations t1.allProcesses) (durations t2.allProcesses)) := by
    rw [hdiffs, cmdDiff]
  refine ⟨fun c hc => ?_, ?_, fun cmd dur hchange hout => ?_, newCommands_eq t1 t2, newCommands_eq t2 t1⟩
  · rw [hchanges] at hc
    obtain ⟨e, he, rfl⟩ := List.mem_map.mp hc
    obtain ⟨d, hd, -, hdur⟩ := hprinted e he
    rw [hdur]
    exact hd
  · rw [hchanges, List.pairwise_map]
    refine (hascending.sublist (List.take_sublist _ _)).imp_of_mem fun he he' hlt => ?_
    obtain ⟨d, -, hkey, hdur⟩ := hprinted _ he
    obtain ⟨d', -, hkey', hdur'⟩ := hprinted _ he'
    rw [hdur, hdur']
    exact (Tally.lt_iff_outranks hkey hkey').mp hlt
  · have hin : toLex (-|dur|, cmd) ∈ diffs := hdiffs ▸ (mem_timeDiffs h1 h2).mpr ⟨dur, hchange, rfl⟩
    have hout' : toLex (-|dur|, cmd) ∉ diffs.take 10 := fun htake => hout (by
      rw [hchanges, List.map_map]
      exact List.mem_map.mpr ⟨_, htake, rfl⟩)
    obtain ⟨hten, hbehind⟩ := Tally.behind_take hascending hin hout'
    rw [hchanges]
    refine ⟨by rw [List.length_map, hten], fun c hc => ?_⟩
    obtain ⟨e, he, rfl⟩ := List.mem_map.mp hc
    obtain ⟨d, -, hkey, hdur⟩ := hprinted e he
    rw [hdur]
    exact (Tally.lt_iff_outranks hkey rfl).mp (hbehind e he)

private theorem swapped_changes : (cmdDiff t2 t1).changes = (cmdDiff t1 t2).swapped.changes := by
  simp only [cmdDiff, BuildDiff.swapped]
  rw [timeDiffs_swap h1 h2, List.map_map]
  apply List.map_congr_left
  intro e he
  have hin := List.mem_of_mem_take he
  obtain ⟨d, hd, -, hdur⟩ := printed_change h1 h2 hin
  rw [← timeDiffs_swap h1 h2] at hin
  obtain ⟨d', hd', -, hdur'⟩ := printed_change h2 h1 hin
  rw [Function.comp_apply, hdur, hdur', hd'.unique hd.swap]

end Comparison

/-- A build whose times and numbers of rows the program's integers hold. -/
structure Tables.Fits (t : Tables) : Prop where
  times : t.TimesFit
  processes : t.processes.length < 2 ^ 31
  accesses : t.fileAccesses.length < 2 ^ 31

private theorem cmdDiff_swap {t1 t2 : Tables} (h1 : t1.Fits) (h2 : t2.Fits) :
    cmdDiff t2 t1 = (cmdDiff t1 t2).swapped := by
  have htime : int64 (buildTime t1.allProcesses - buildTime t2.allProcesses) =
      -int64 (buildTime t2.allProcesses - buildTime t1.allProcesses) := by
    have hbounds1 := buildTime_bounds h1.times
    have hbounds2 := buildTime_bounds h2.times
    rw [int64_of_range (by omega) (by omega), int64_of_range (by omega) (by omega)]
    omega
  have hcount : ∀ {m n : Nat}, m < 2 ^ 31 → n < 2 ^ 31 → int32 (int32 m - int32 n) = -int32 (int32 n - int32 m) := by
    intro m n hm hn
    have hm' : int32 m = m := int32_of_small (by omega) (by omega)
    have hn' : int32 n = n := int32_of_small (by omega) (by omega)
    rw [hm', hn', int32_of_range (by omega) (by omega), int32_of_range (by omega) (by omega)]
    omega
  have hlength : ∀ t : Tables, t.allProcesses.length = t.processes.length := fun t => List.length_insertionSort _ _
  have hprocesses := hcount ((hlength t1).trans_lt h1.processes) ((hlength t2).trans_lt h2.processes)
  have haccesses := hcount h1.accesses h2.accesses
  have hchanges := swapped_changes h1.times h2.times
  simp only [cmdDiff, BuildDiff.swapped] at hchanges ⊢
  rw [htime, hprocesses, haccesses, hchanges]

theorem build_diff (t1 t2 : Tables) (h1 : t1.Fits) (h2 : t2.Fits) :
    ComparesBuilds (cmdDiff t1 t2) t1 t2 ∧ cmdDiff t2 t1 = (cmdDiff t1 t2).swapped :=
  ⟨compares_builds h1.times h2.times, cmdDiff_swap h1 h2⟩

/-- A build of two files. -/
def slowBuild : Tables where
  processes := [{ pid := 1, ppid := 0, cmdline := "cc a.c".toList, startTimeUs := 10, endTimeUs := 60 },
    { pid := 2, ppid := 0, cmdline := "cc b.c".toList, startTimeUs := 20, endTimeUs := 40 },
    { pid := 3, ppid := 0, cmdline := "strip a".toList, startTimeUs := 70, endTimeUs := 75 }]

/-- The same with a faster compiler and a linker. -/
def fastBuild : Tables where
  processes := [{ pid := 7, ppid := 0, cmdline := "cc a.c".toList, startTimeUs := 5, endTimeUs := 25 },
    { pid := 8, ppid := 0, cmdline := "cc b.c".toList, startTimeUs := 5, endTimeUs := 20 },
    { pid := 9, ppid := 0, cmdline := "ld".toList, startTimeUs := 30 }]

theorem build_diff_fastBuild : ComparesBuilds (cmdDiff slowBuild fastBuild) slowBuild fastBuild ∧
    cmdDiff fastBuild slowBuild = (cmdDiff slowBuild fastBuild).swapped :=
  build_diff slowBuild fastBuild ⟨by simp [Tables.TimesFit, slowBuild], by decide, by decide⟩
    ⟨by simp [Tables.TimesFit, fastBuild], by decide, by decide⟩

example : (cmdDiff slowBuild fastBuild).changes = [⟨-30, "cc a.c".toList⟩, ⟨-5, "cc b.c".toList⟩] := by decide +kernel

end Bdtrace
