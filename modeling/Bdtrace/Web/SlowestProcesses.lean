import Bdtrace.General.Tallies
import Bdtrace.View.Diagnostics
import Bdtrace.View.ScriptTokens
import Bdtrace.Web.ProcessEndpoints
import Bdtrace.Web.QueryParams

/-! The slowest processes, on the command line and from the web server, where the commands are groups that a second
request opens. -/
namespace Bdtrace
open Std (TreeMap)

/-- A row of the list without groups. -/
structure SlowJson where
  pid : Int
  cmdline : Str
  durationUs : Int
  deriving DecidableEq, Repr

def ProcessRecord.slowJson (r : ProcessRecord) : SlowJson := ⟨r.pid, r.cmdline, r.durationUs⟩

/-- What `write_proc_info` writes. -/
structure ProcInfo where
  startTimeUs : Int
  endTimeUs : Int
  durationUs : Int
  exitCode : Int
  userTimeUs : Int
  sysTimeUs : Int
  peakRssKb : Int
  ioReadBytes : Int
  ioWriteBytes : Int
  deriving DecidableEq, Repr

def writeProcInfo (proc : ProcessRecord) : ProcInfo where
  startTimeUs := proc.startTimeUs
  endTimeUs := proc.endTimeUs
  durationUs := proc.durationUs
  exitCode := proc.exitCode
  userTimeUs := proc.userTimeUs
  sysTimeUs := proc.sysTimeUs
  peakRssKb := proc.peakRssKb
  ioReadBytes := proc.ioReadBytes
  ioWriteBytes := proc.ioWriteBytes

/-- A row of an opened group. -/
structure MatchedJson where
  pid : Int
  ppid : Int
  cmdline : Str
  info : ProcInfo
  deriving DecidableEq, Repr

def ProcessRecord.matchedJson (r : ProcessRecord) : MatchedJson := ⟨r.pid, r.ppid, r.cmdline, writeProcInfo r⟩

structure GroupStats where
  count : Int := 0
  totalUs : Int := 0
  maxUs : Int := 0
  totalCpuUs : Int := 0
  maxCpuUs : Int := 0
  totalRssKb : Int := 0
  maxRssKb : Int := 0
  deriving DecidableEq, Repr

def GroupStats.add (gs : GroupStats) (r : ProcessRecord) : GroupStats :=
  let dur := r.durationUs
  let cpu := r.userTimeUs + r.sysTimeUs
  { count := gs.count + 1
    totalUs := gs.totalUs + dur
    maxUs := if dur > gs.maxUs then dur else gs.maxUs
    totalCpuUs := gs.totalCpuUs + cpu
    maxCpuUs := if cpu > gs.maxCpuUs then cpu else gs.maxCpuUs
    totalRssKb := gs.totalRssKb + r.peakRssKb
    maxRssKb := if r.peakRssKb > gs.maxRssKb then r.peakRssKb else gs.maxRssKb }

/-- A group as it is written. -/
structure GroupJson where
  cmdName : Str
  count : Int
  totalUs : Int
  maxUs : Int
  avgUs : Int
  totalCpuUs : Int
  maxCpuUs : Int
  avgCpuUs : Int
  maxRssKb : Int
  deriving DecidableEq, Repr

def GroupStats.json (name : Str) (gs : GroupStats) : GroupJson where
  cmdName := name
  count := gs.count
  totalUs := gs.totalUs
  maxUs := gs.maxUs
  avgUs := if gs.count > 0 then gs.totalUs.tdiv gs.count else 0
  totalCpuUs := gs.totalCpuUs
  maxCpuUs := gs.maxCpuUs
  avgCpuUs := if gs.count > 0 then gs.totalCpuUs.tdiv gs.count else 0
  maxRssKb := gs.maxRssKb

inductive SlowestAnswer where
  | opened (rows : List MatchedJson)
  | groups (rows : List GroupJson)
  | slowest (rows : List SlowJson)
  deriving DecidableEq, Repr

section Handlers
variable (sort : List ProcessRecord → List ProcessRecord) (t : Tables)

/-- `cmd_slowest`: the number in the heading, and the lines. -/
def cmdSlowest (n : Int) : Int × List SlowJson :=
  let valid := sort (t.allProcesses.filter fun r => r.endTimeUs > 0)
  let count := if n < valid.length then n else valid.length
  (count, (valid.take count.toNat).map (·.slowJson))

/-- `GET /api/slowest`. -/
def handleSlowest (query : Str) : SlowestAnswer :=
  let groupBy := getQueryParam query "group_by".toList
  let cmdFilter := getQueryParam query "cmd".toList
  if cmdFilter ≠ [] then
    .opened ((sort (t.allProcesses.filter fun r => ¬ r.endTimeUs ≤ 0 ∧ cmdNameFull r.cmdline r.cwd = cmdFilter)).map
      (·.matchedJson))
  else if groupBy = "cmd_name".toList then
    let groups : TreeMap Str GroupStats := t.allProcesses.foldl (fun groups r =>
      if r.endTimeUs ≤ 0 then groups
      else groups.alter (cmdNameFull r.cmdline r.cwd) fun gs => some ((gs.getD {}).add r)) ∅
    .groups (groups.toList.map fun e => e.2.json e.1)
  else
    let valid := sort (t.allProcesses.filter fun r => r.endTimeUs > 0)
    .slowest ((valid.take (min 20 valid.length)).map (·.slowJson))

end Handlers

/-! ### Groups and their processes -/

/-- The greatest of the values, and zero. -/
def IsPeak (values : List Int) (peak : Int) : Prop := IsGreatest {v | v = 0 ∨ v ∈ values} peak

/-- The numbers of a group are those of its processes. -/
structure SumsUp (g : GroupJson) (procs : List ProcessRecord) : Prop where
  count : g.count = procs.length
  totalUs : g.totalUs = (procs.map (·.durationUs)).sum
  maxUs : IsPeak (procs.map (·.durationUs)) g.maxUs
  avgUs : g.avgUs = g.totalUs.tdiv procs.length
  totalCpuUs : g.totalCpuUs = (procs.map fun r => r.userTimeUs + r.sysTimeUs).sum
  maxCpuUs : IsPeak (procs.map fun r => r.userTimeUs + r.sysTimeUs) g.maxCpuUs
  avgCpuUs : g.avgCpuUs = g.totalCpuUs.tdiv procs.length
  maxRssKb : IsPeak (procs.map (·.peakRssKb)) g.maxRssKb

/-- The name that a finished process is grouped under. -/
def groupKey (r : ProcessRecord) : Option Str := if r.endTimeUs ≤ 0 then none else some (cmdNameFull r.cmdline r.cwd)

private theorem peak_step {values : List Int} {peak : Int} (h : IsPeak values peak) (v : Int) :
    IsPeak (values ++ [v]) (if v > peak then v else peak) := by
  obtain ⟨hmem, hup⟩ := h
  split
  · refine ⟨.inr (List.mem_append_right _ List.mem_cons_self), fun w hw => ?_⟩
    rcases hw with rfl | hw
    · have := hup (.inl rfl)
      omega
    · rcases List.mem_append.mp hw with hw | hw
      · have := hup (.inr hw)
        omega
      · rw [List.mem_singleton.mp hw]
  · refine ⟨hmem.imp_right fun hin => List.mem_append_left _ hin, fun w hw => ?_⟩
    rcases hw with rfl | hw
    · exact hup (.inl rfl)
    · rcases List.mem_append.mp hw with hw | hw
      · exact hup (.inr hw)
      · rw [List.mem_singleton.mp hw]
        omega

/-- The statistics of a list of processes. -/
structure Gathered (procs : List ProcessRecord) (gs : GroupStats) : Prop where
  count : gs.count = procs.length
  totalUs : gs.totalUs = (procs.map (·.durationUs)).sum
  maxUs : IsPeak (procs.map (·.durationUs)) gs.maxUs
  totalCpuUs : gs.totalCpuUs = (procs.map fun r => r.userTimeUs + r.sysTimeUs).sum
  maxCpuUs : IsPeak (procs.map fun r => r.userTimeUs + r.sysTimeUs) gs.maxCpuUs
  maxRssKb : IsPeak (procs.map (·.peakRssKb)) gs.maxRssKb

private theorem gathered_foldl (procs : List ProcessRecord) : Gathered procs (procs.foldl GroupStats.add {}) := by
  have hnone : IsPeak [] 0 := ⟨.inl rfl, fun w hw => hw.elim Int.le_of_eq fun hin => by cases hin⟩
  induction procs using List.reverseRecOn with
  | nil => exact ⟨rfl, rfl, hnone, rfl, hnone, hnone⟩
  | append_singleton procs r ih =>
    rw [List.foldl_append, List.foldl_cons, List.foldl_nil]
    refine ⟨?_, ?_, ?_, ?_, ?_, ?_⟩
    · rw [GroupStats.add, ih.count, List.length_append]
      rfl
    · rw [GroupStats.add, ih.totalUs, List.map_append, List.sum_append, List.map_singleton, List.sum_singleton]
    · rw [List.map_append]
      exact peak_step ih.maxUs r.durationUs
    · rw [GroupStats.add, ih.totalCpuUs, List.map_append, List.sum_append, List.map_singleton, List.sum_singleton]
    · rw [List.map_append]
      exact peak_step ih.maxCpuUs (r.userTimeUs + r.sysTimeUs)
    · rw [List.map_append]
      exact peak_step ih.maxRssKb r.peakRssKb

private theorem Gathered.sumsUp {procs : List ProcessRecord} {gs : GroupStats} (h : Gathered procs gs)
    (hne : procs ≠ [])
    (name : Str) : SumsUp (gs.json name) procs := by
  have hpos : gs.count > 0 := by
    rw [h.count]
    exact Int.natCast_pos.mpr (List.length_pos_iff.mpr hne)
  refine ⟨h.count, h.totalUs, h.maxUs, ?_, h.totalCpuUs, h.maxCpuUs, ?_, h.maxRssKb⟩
  · show (if gs.count > 0 then gs.totalUs.tdiv gs.count else 0) = gs.totalUs.tdiv procs.length
    rw [if_pos hpos, h.count]
  · show (if gs.count > 0 then gs.totalCpuUs.tdiv gs.count else 0) = gs.totalCpuUs.tdiv procs.length
    rw [if_pos hpos, h.count]

private theorem isPeak_perm {values values' : List Int} (h : values.Perm values') {peak : Int} :
    IsPeak values peak ↔ IsPeak values' peak := by
  rw [IsPeak, IsPeak, show {v | v = 0 ∨ v ∈ values} = {v | v = 0 ∨ v ∈ values'} from Set.ext fun v =>
    or_congr_right h.mem_iff]

private theorem SumsUp.of_perm {g : GroupJson} {procs procs' : List ProcessRecord} (hperm : procs.Perm procs')
    (h : SumsUp g procs) :
    SumsUp g procs' := by
  refine ⟨?_, ?_, ?_, ?_, ?_, ?_, ?_, ?_⟩
  · rw [h.count, hperm.length_eq]
  · rw [h.totalUs, (hperm.map _).sum_eq]
  · exact (isPeak_perm (hperm.map _)).mp h.maxUs
  · rw [h.avgUs, hperm.length_eq]
  · rw [h.totalCpuUs, (hperm.map _).sum_eq]
  · exact (isPeak_perm (hperm.map _)).mp h.maxCpuUs
  · rw [h.avgCpuUs, hperm.length_eq]
  · exact (isPeak_perm (hperm.map _)).mp h.maxRssKb

section Requests
variable {sort : List ProcessRecord → List ProcessRecord} {t : Tables}

/-- The processes of a group. -/
def ofGroup (t : Tables) (name : Str) : List ProcessRecord := Tally.rowsOf groupKey t.allProcesses name

private theorem handleSlowest_groups (sort : List ProcessRecord → List ProcessRecord) (t : Tables) :
    handleSlowest sort t "group_by=cmd_name".toList =
      .groups ((Tally.tally groupKey {} GroupStats.add t.allProcesses).toList.map fun e => e.2.json e.1) := by
  have hcmd : getQueryParam "group_by=cmd_name".toList "cmd".toList = [] := by decide
  have hgroup : getQueryParam "group_by=cmd_name".toList "group_by".toList = "cmd_name".toList := by decide
  have hstep : (fun (groups : TreeMap Str GroupStats) (r : ProcessRecord) =>
      if r.endTimeUs ≤ 0 then groups
      else groups.alter (cmdNameFull r.cmdline r.cwd) fun gs => some ((gs.getD {}).add r)) =
        Tally.step groupKey {} GroupStats.add := by
    funext groups r
    rw [Tally.step, groupKey]
    split <;> rfl
  simp only [handleSlowest, hcmd, hgroup, hstep]
  rfl

/-- The request that opens a group. -/
def openGroup (name : Str) : Str := "cmd=".toList ++ encodeURIComponent.encode name

private theorem handleSlowest_open {name : Str} (hne : name ≠ []) (hbytes : ∀ c ∈ name, c.toNat < 256) :
    handleSlowest sort t (openGroup name) = .opened ((sort (ofGroup t name)).map (·.matchedJson)) := by
  have hcmd : getQueryParam (openGroup name) "cmd".toList = name := by
    have h := getQueryParam_encode encodeURIComponent "cmd".toList name hbytes none
    rwa [Option.elim_none, List.append_nil] at h
  have hrows : (t.allProcesses.filter fun r => decide (¬ r.endTimeUs ≤ 0 ∧ cmdNameFull r.cmdline r.cwd = name)) =
      ofGroup t name := by
    apply List.filter_congr
    intro r _
    rw [decide_eq_decide, groupKey]
    split <;> simp_all
  simp only [handleSlowest, hcmd]
  rw [if_pos hne, hrows]

end Requests

/-- The groups share the finished processes among them. Opened, a group shows its processes from the longest on, and
its numbers are theirs; but a group without a name cannot be opened: the request for it is answered with the slowest
processes of all. -/
theorem slowest_groups (sort : List ProcessRecord → List ProcessRecord) (hsort : SortsByDuration sort) (t : Tables) :
    ∃ groups, handleSlowest sort t "group_by=cmd_name".toList = .groups groups ∧ (groups.map (·.cmdName)).Nodup ∧
      (∀ r ∈ t.processes, r.endTimeUs > 0 → cmdNameFull r.cmdline r.cwd ∈ groups.map (·.cmdName)) ∧
      (∀ g ∈ groups, g.cmdName ≠ [] → (∀ c ∈ g.cmdName, c.toNat < 256) →
        ∃ procs, handleSlowest sort t (openGroup g.cmdName) = .opened (procs.map (·.matchedJson)) ∧
          (∀ r, r ∈ procs ↔ r ∈ t.processes ∧ r.endTimeUs > 0 ∧ cmdNameFull r.cmdline r.cwd = g.cmdName) ∧
          SumsUp g procs ∧ procs.Pairwise fun a b => b.durationUs ≤ a.durationUs) ∧
      handleSlowest sort t (openGroup []) = .slowest (cmdSlowest sort t 20).2 := by
  refine ⟨_, handleSlowest_groups sort t, ?_, ?_, ?_, ?_⟩
  · rw [List.map_map]
    exact Tally.nodup_keys_tally t.allProcesses
  · intro r hr hend
    rw [List.map_map]
    exact Tally.mem_keys_tally.mpr ⟨r, (mem_allProcesses r).mpr hr, if_neg (by omega)⟩
  · intro g hg hne hbytes
    obtain ⟨e, he, rfl⟩ := List.mem_map.mp hg
    obtain ⟨hkey, hstats⟩ := Tally.mem_toList_tally.mp he
    have hgroup : SumsUp (e.2.json e.1) (ofGroup t e.1) := by
      rw [hstats]
      exact (gathered_foldl _).sumsUp (Tally.rowsOf_ne_nil.mpr hkey) e.1
    refine ⟨sort (ofGroup t e.1), handleSlowest_open hne hbytes, fun r => ?_, ?_, hsort.sorted _⟩
    · rw [(hsort.perm _).mem_iff, ofGroup, Tally.rowsOf, List.mem_filter, mem_allProcesses, decide_eq_true_eq, groupKey]
      refine and_congr_right fun _ => ?_
      split
      · rename_i hend
        exact iff_of_false (Option.some_ne_none _).symm fun h => by omega
      · rename_i hend
        rw [Option.some.injEq]
        exact ⟨fun h => ⟨by omega, h⟩, And.right⟩
    · exact hgroup.of_perm (hsort.perm _).symm
  · have hcmd : getQueryParam (openGroup []) "cmd".toList = [] := by decide
    have hgroup : getQueryParam (openGroup []) "group_by".toList = [] := by decide
    simp only [handleSlowest, hcmd, hgroup, cmdSlowest]
    rw [if_neg (fun h => h rfl), if_neg (by decide)]
    congr 3
    split <;> omega

/-- Two compilers of one name, and a shell that runs. -/
def twoCompilers : Tables where
  processes := [{ pid := 1, ppid := 0, cmdline := "make".toList, endTimeUs := 9 },
    { pid := 2, ppid := 1, cmdline := "cc -c a.c".toList, startTimeUs := 1, endTimeUs := 4 },
    { pid := 3, ppid := 1, cmdline := "cc -c b.c".toList, startTimeUs := 4, endTimeUs := 8 },
    { pid := 4, ppid := 1, cmdline := "cc -c c.c".toList, startTimeUs := 8, endTimeUs := 0 }]

theorem slowest_groups_compilers :
    ∃ groups, handleSlowest longestFirst twoCompilers "group_by=cmd_name".toList = .groups groups ∧
    (groups.map (·.cmdName)).Nodup := by
  obtain ⟨groups, hgroups, hnd, -⟩ := slowest_groups longestFirst longestFirst_sorts twoCompilers
  exact ⟨groups, hgroups, hnd⟩

example : handleSlowest longestFirst twoCompilers (openGroup "cc".toList) = .opened ([3, 2].filterMap fun p =>
    (twoCompilers.getProcess p).map (·.matchedJson)) := by decide +kernel

end Bdtrace
