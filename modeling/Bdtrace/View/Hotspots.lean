import Bdtrace.CStrings
import Bdtrace.General.Tallies
import Bdtrace.Store.PrefixQueries
import Bdtrace.View.DependencyGraph

/-! The files and directories with the most accesses, as the command line and the web server count them. -/
namespace Bdtrace
open Std (TreeMap TreeSet)

structure HotspotEntry where
  name : Str
  total : Nat
  reads : Nat
  writes : Nat
  numProcs : Nat
  deriving DecidableEq, Repr

structure AccumData where
  total : Nat := 0
  reads : Nat := 0
  writes : Nat := 0
  pids : TreeSet Int := ∅

def AccumData.add (d : AccumData) (pid mode : Int) : AccumData where
  total := d.total + 1
  reads := if isInputMode mode then d.reads + 1 else d.reads
  writes := if isOutputMode mode then d.writes + 1 else d.writes
  pids := d.pids.insert pid

def hotspotEntries (accum : TreeMap Str AccumData) : List HotspotEntry :=
  accum.toList.map fun e => ⟨e.1, e.2.total, e.2.reads, e.2.writes, e.2.pids.size⟩

/-- `cmp_hotspot_desc`. -/
def cmpHotspotDesc (a b : HotspotEntry) : Bool := a.total > b.total

/-- The first `topN` entries as `std::sort` with `cmp_hotspot_desc` leaves them. -/
def topHotspots (sort : List HotspotEntry → List HotspotEntry) (topN : Int) (entries : List HotspotEntry) :
    List HotspotEntry :=
  (sort entries).take (if topN > entries.length then (entries.length : Int) else topN).toNat

/-- A sort that `cmp_hotspot_desc` determines up to the order of equals. -/
structure SortsByTotal (sort : List HotspotEntry → List HotspotEntry) : Prop where
  perm : ∀ entries, (sort entries).Perm entries
  sorted : ∀ entries, (sort entries).Pairwise fun a b => cmpHotspotDesc b a = false

private theorem map_total_topHotspots {sort sort' : List HotspotEntry → List HotspotEntry} (hsort : SortsByTotal sort)
    (hsort' : SortsByTotal sort') {entries entries' : List HotspotEntry} (h : entries.Perm entries') (topN : Int) :
    (topHotspots sort topN entries).map (·.total) = (topHotspots sort' topN entries').map (·.total) := by
  have hdesc : ∀ {sort}, SortsByTotal sort → ∀ entries, ((sort entries).map (·.total)).Pairwise (· ≥ ·) :=
    fun hs entries =>
    List.pairwise_map.mpr ((hs.sorted entries).imp fun hab => Nat.le_of_not_lt (of_decide_eq_false hab))
  have hsame : (sort entries).map (·.total) = (sort' entries').map (·.total) :=
    (((hsort.perm entries).trans (h.trans (hsort'.perm entries').symm)).map _).eq_of_pairwise
      (fun a b _ _ hab hba => Nat.le_antisymm hba hab) (hdesc hsort entries) (hdesc hsort' entries')
  rw [topHotspots, topHotspots, List.map_take, List.map_take, hsame, h.length_eq]

/-! ### The command line -/

/-- `key.rfind('/')`. -/
def rfindSlash : Str → Option Nat
  | [] => none
  | c :: s => match rfindSlash s with
    | some i => some (i + 1)
    | none => if c = '/' then some 0 else none

/-- The key of `cmd_hotspot`. -/
def cmdHotspotKey (byDir : Bool) (filename : Str) : Str :=
  if byDir then
    match rfindSlash filename with
    | some slash => filename.take (slash + 1)
    | none => filename
  else filename

def accumulate (byDir : Bool) (allFa : List Tables.StoredAccess) : TreeMap Str AccumData :=
  allFa.foldl (fun accum a =>
    accum.alter (cmdHotspotKey byDir (a.path.getD [])) fun d => some ((d.getD {}).add a.pid a.mode)) ∅

namespace Tables

/-- `Database::get_all_file_accesses`. -/
def getAllFileAccesses (t : Tables) : List StoredAccess := t.joined.map JoinedAccess.stored

/-- The records of `cmd_hotspot` before they are sorted. -/
def cmdEntries (t : Tables) (byDir : Bool) : List HotspotEntry := hotspotEntries (accumulate byDir t.getAllFileAccesses)

/-- The lines that `cmd_hotspot` prints, none for a trace without accesses. -/
def cmdHotspot (sort : List HotspotEntry → List HotspotEntry) (t : Tables) (topN : Int) (byDir : Bool) :
    List HotspotEntry :=
  if t.getAllFileAccesses = [] then [] else topHotspots sort topN (t.cmdEntries byDir)

end Tables

/-! ### The web server -/

structure FileStatRow where
  filename : Str
  accessCount : Nat
  readCount : Nat
  writeCount : Nat
  processCount : Nat
  deriving DecidableEq, Repr

def FileStatRow.entry (r : FileStatRow) : HotspotEntry :=
  ⟨r.filename, r.accessCount, r.readCount, r.writeCount, r.processCount⟩

/-- `SUM(CASE WHEN a.mode IN (...) THEN 1 ELSE 0 END)`. -/
def sumModes (modes : List Int) (group : List Tables.JoinedAccess) : Nat :=
  (group.map fun r => if r.row.mode ∈ modes then 1 else 0).sum

/-- One row of `GROUP BY a.file_id`. -/
def statRow (group : List Tables.JoinedAccess) : FileStatRow where
  filename := (group.head?.map (·.path)).getD []
  accessCount := group.length
  readCount := sumModes [0, 2, 3, 4, 5, 9] group
  writeCount := sumModes [1, 2, 8, 10, 12, 14, 17, 18] group
  processCount := (group.map (·.row.pid)).dedup.length

/-- The key of `hotspot_dir_scan_cb`. -/
def dirScanKey (filename : Str) : Str :=
  match strrchr '/' filename with
  | some lastSlash => filename.take (filename.length - lastSlash.length + 1)
  | none => filename

def hotspotDirScanCb (pid : Int) (filename : Str) (mode : Int) (accum : TreeMap Str AccumData) :
    TreeMap Str AccumData :=
  accum.alter (dirScanKey filename) fun d => some ((d.getD {}).add pid mode)

namespace Tables
variable (t : Tables)

/-- `Database::get_file_stats_grouped`. -/
def getFileStatsGrouped : List FileStatRow :=
  (t.joined.map (·.row.fileId)).dedup.map fun fid => statRow (t.joined.filter fun r => r.row.fileId = fid)

/-- The user data of `Database::scan_all_file_accesses` after the last row. -/
def scanAllFileAccesses {σ : Type} (cb : Int → Str → Int → σ → σ) (userData : σ) : σ :=
  t.joined.foldl (fun s r => cb r.row.pid r.path r.row.mode s) userData

/-- The records of `handle_hotspots` before they are sorted. -/
def webEntries (byDir : Bool) : List HotspotEntry :=
  if byDir then hotspotEntries (t.scanAllFileAccesses hotspotDirScanCb ∅)
  else t.getFileStatsGrouped.map FileStatRow.entry

/-- `GET /api/hotspots`. -/
def handleHotspots (sort : List HotspotEntry → List HotspotEntry) (topN : Int) (byDir : Bool) : List HotspotEntry :=
  topHotspots sort topN (t.webEntries byDir)

end Tables

/-! ### The modes -/

private theorem mem_readModes (mode : Int) : mode ∈ [0, 2, 3, 4, 5, 9] ↔ isInputMode mode = true := by
  simp only [List.mem_cons, List.not_mem_nil, or_false, isInputMode, Bool.or_eq_true, decide_eq_true_eq]
  simp only [FileAccessMode.code]
  tauto

private theorem mem_writeModes (mode : Int) : mode ∈ [1, 2, 8, 10, 12, 14, 17, 18] ↔ isOutputMode mode = true := by
  simp only [List.mem_cons, List.not_mem_nil, or_false, isOutputMode, Bool.or_eq_true, decide_eq_true_eq]
  simp only [FileAccessMode.code]
  tauto

private theorem sumModes_eq {modes : List Int} {p : Int → Bool} (h : ∀ mode, mode ∈ modes ↔ p mode = true)
    (group : List Tables.JoinedAccess) : sumModes modes group = (group.filter fun r => p r.row.mode).length := by
  induction group with
  | nil => rfl
  | cons r group ih =>
    rw [sumModes, List.map_cons, List.sum_cons, ← sumModes, ih, List.filter_cons]
    by_cases hr : r.row.mode ∈ modes
    · rw [if_pos hr, if_pos ((h _).mp hr), List.length_cons, Nat.add_comm]
    · rw [if_neg hr, if_neg (mt (h _).mpr hr), Nat.zero_add]

/-! ### The last slash -/

private theorem rfindSlash_strrchr (s : Str) : (rfindSlash s).isSome = (strrchr '/' s).isSome ∧
    ∀ i rest, rfindSlash s = some i → strrchr '/' s = some rest → s.length = i + rest.length := by
  induction s with
  | nil => exact ⟨rfl, nofun⟩
  | cons c s ih =>
    rw [rfindSlash, strrchr]
    cases hi : rfindSlash s with
    | none =>
      cases hrest : strrchr '/' s with
      | none => by_cases hc : c = '/' <;> simp [hc]
      | some rest => simp [hi, hrest] at ih
    | some i =>
      cases hrest : strrchr '/' s with
      | none => simp [hi, hrest] at ih
      | some rest =>
        have := ih.2 i rest hi hrest
        simp
        omega

/-- The two ways to the directory of a file agree. -/
private theorem dirScanKey_eq (filename : Str) : dirScanKey filename = cmdHotspotKey true filename := by
  obtain ⟨hsome, hlen⟩ := rfindSlash_strrchr filename
  rw [dirScanKey, cmdHotspotKey, if_pos rfl]
  cases hi : rfindSlash filename with
  | none =>
    rw [hi, Option.isSome_none, eq_comm, Option.isSome_eq_false_iff, Option.isNone_iff_eq_none] at hsome
    rw [hsome]
  | some i =>
    rw [hi, Option.isSome_some, eq_comm, Option.isSome_iff_exists] at hsome
    obtain ⟨rest, hrest⟩ := hsome
    have := hlen i rest hi hrest
    rw [hrest]
    show filename.take _ = filename.take _
    congr 1
    omega

/-! ### The records of a group of rows -/

/-- What a group of access rows amounts to. -/
def hotspotOf (name : Str) (group : List Tables.JoinedAccess) : HotspotEntry where
  name := name
  total := group.length
  reads := (group.filter fun r => isInputMode r.row.mode).length
  writes := (group.filter fun r => isOutputMode r.row.mode).length
  numProcs := (group.map (·.row.pid)).dedup.length

abbrev addRow (d : AccumData) (r : Tables.JoinedAccess) : AccumData := d.add r.row.pid r.row.mode

private theorem foldl_addRow (group : List Tables.JoinedAccess) (d : AccumData) :
    (group.foldl addRow d).total = d.total + group.length ∧
    (group.foldl addRow d).reads = d.reads + (group.filter fun r => isInputMode r.row.mode).length ∧
    (group.foldl addRow d).writes = d.writes + (group.filter fun r => isOutputMode r.row.mode).length ∧
    ∀ p, p ∈ (group.foldl addRow d).pids ↔ p ∈ d.pids ∨ p ∈ group.map (·.row.pid) := by
  induction group generalizing d with
  | nil => simp
  | cons r group ih =>
    obtain ⟨htotal, hreads, hwrites, hpids⟩ := ih (addRow d r)
    rw [List.foldl_cons, htotal, hreads, hwrites]
    refine ⟨?_, ?_, ?_, fun p => ?_⟩
    · simp only [addRow, AccumData.add, List.length_cons]
      omega
    · cases hr : isInputMode r.row.mode <;> simp [addRow, AccumData.add, hr]
      omega
    · cases hw : isOutputMode r.row.mode <;> simp [addRow, AccumData.add, hw]
      omega
    · rw [hpids]
      simp only [addRow, AccumData.add, Std.TreeSet.mem_insert, compare_eq_iff_eq, List.map_cons, List.mem_cons]
      tauto

/-- The data accumulated for a group are those of its record. -/
private theorem entry_foldl_addRow (name : Str) (group : List Tables.JoinedAccess) :
    (⟨name, (group.foldl addRow {}).total, (group.foldl addRow {}).reads, (group.foldl addRow {}).writes,
      (group.foldl addRow {}).pids.size⟩ : HotspotEntry) = hotspotOf name group := by
  obtain ⟨htotal, hreads, hwrites, hpids⟩ := foldl_addRow group {}
  have hsize : (group.foldl addRow {}).pids.size = (group.map (·.row.pid)).dedup.length := by
    apply Tally.size_eq_length_dedup
    intro p
    rw [hpids]
    exact or_iff_right Std.TreeSet.not_mem_emptyc
  rw [htotal, hreads, hwrites, hsize]
  simp [hotspotOf]

private theorem statRow_entry (group : List Tables.JoinedAccess) :
    (statRow group).entry = hotspotOf ((group.head?.map (·.path)).getD []) group := by
  rw [statRow, FileStatRow.entry, sumModes_eq mem_readModes, sumModes_eq mem_writeModes]
  rfl

namespace Tables
variable {t : Tables}

private theorem accumulate_eq (byDir : Bool) (t : Tables) : accumulate byDir t.getAllFileAccesses =
    Tally.tally (fun r => some (cmdHotspotKey byDir r.path)) {} addRow t.joined := by
  rw [accumulate, getAllFileAccesses, List.foldl_map]
  rfl

private theorem mem_cmdEntries {byDir : Bool} {e : HotspotEntry} : e ∈ t.cmdEntries byDir ↔
    ∃ r ∈ t.joined, e = hotspotOf (cmdHotspotKey byDir r.path)
      (t.joined.filter fun r' => cmdHotspotKey byDir r'.path = cmdHotspotKey byDir r.path) := by
  have hrows : ∀ key, Tally.rowsOf (fun r : JoinedAccess => some (cmdHotspotKey byDir r.path)) t.joined key =
      t.joined.filter fun r => cmdHotspotKey byDir r.path = key := by
    intro key
    simp only [Tally.rowsOf, Option.some.injEq]
  rw [cmdEntries, hotspotEntries, accumulate_eq, List.mem_map]
  constructor
  · rintro ⟨⟨key, d⟩, hd, rfl⟩
    obtain ⟨⟨r, hr, hkey⟩, hdata⟩ := Tally.mem_toList_tally.mp hd
    obtain rfl := Option.some.inj hkey
    refine ⟨r, hr, ?_⟩
    rw [← entry_foldl_addRow, ← hrows, ← hdata]
  · rintro ⟨r, hr, rfl⟩
    rw [← entry_foldl_addRow, ← hrows]
    exact ⟨(cmdHotspotKey byDir r.path, _), Tally.mem_toList_tally.mpr ⟨⟨r, hr, rfl⟩, rfl⟩, rfl⟩

private theorem nodup_cmdEntries (byDir : Bool) (t : Tables) : ((t.cmdEntries byDir).map (·.name)).Nodup := by
  rw [cmdEntries, hotspotEntries, accumulate_eq, List.map_map]
  exact Tally.nodup_keys_tally t.joined

/-- One file, one path: rows of one id are rows of one path. -/
theorem fileId_eq_iff (hids : (t.files.map (·.id)).Nodup) (hpaths : (t.files.map (·.path)).Nodup)
    {r r' : JoinedAccess} (hr : r ∈ t.joined) (hr' : r' ∈ t.joined) :
    r.row.fileId = r'.row.fileId ↔ r.path = r'.path := by
  have hf := (mem_joined.mp hr).2
  have hf' := (mem_joined.mp hr').2
  constructor
  · intro h
    exact congrArg FileRow.path (List.inj_on_of_nodup_map hids hf hf' h)
  · intro h
    exact congrArg FileRow.id (List.inj_on_of_nodup_map hpaths hf hf' h)

/-- The group of one id is the group of its path. -/
theorem statRow_group (hids : (t.files.map (·.id)).Nodup) (hpaths : (t.files.map (·.path)).Nodup) {r : JoinedAccess}
    (hr : r ∈ t.joined) : (statRow (t.joined.filter fun r' => r'.row.fileId = r.row.fileId)).entry =
      hotspotOf r.path (t.joined.filter fun r' => r'.path = r.path) := by
  have hgroup : (t.joined.filter fun r' => r'.row.fileId = r.row.fileId) =
      t.joined.filter fun r' => r'.path = r.path := by
    apply List.filter_congr
    intro r' hr'
    exact decide_eq_decide.mpr (fileId_eq_iff hids hpaths hr' hr)
  have hmem : r ∈ t.joined.filter fun r' => r'.path = r.path := List.mem_filter.mpr ⟨hr, decide_eq_true rfl⟩
  rw [statRow_entry, hgroup]
  cases hhead : t.joined.filter fun r' => r'.path = r.path with
  | nil =>
    rw [hhead] at hmem
    exact absurd hmem List.not_mem_nil
  | cons r₀ rest =>
    have h₀ : r₀ ∈ t.joined.filter fun r' => r'.path = r.path := hhead ▸ List.mem_cons_self
    show hotspotOf r₀.path _ = _
    rw [of_decide_eq_true (List.mem_filter.mp h₀).2]

section
variable (hids : (t.files.map (·.id)).Nodup) (hpaths : (t.files.map (·.path)).Nodup)
include hids hpaths

/-- One record for each file, whichever way the rows are grouped. -/
private theorem statEntries_perm : (t.getFileStatsGrouped.map FileStatRow.entry).Perm (t.cmdEntries false) := by
  have hentries : t.getFileStatsGrouped.map FileStatRow.entry = (t.joined.map (·.row.fileId)).dedup.map
      fun fid => (statRow (t.joined.filter fun r => r.row.fileId = fid)).entry := List.map_map
  rw [hentries]
  apply (List.perm_ext_iff_of_nodup ?_ ((nodup_cmdEntries false t).of_map _)).mpr
  · intro e
    rw [mem_cmdEntries, List.mem_map]
    constructor
    · rintro ⟨fid, hfid, rfl⟩
      obtain ⟨r, hr, rfl⟩ := List.mem_map.mp (List.mem_dedup.mp hfid)
      exact ⟨r, hr, statRow_group hids hpaths hr⟩
    · rintro ⟨r, hr, rfl⟩
      exact ⟨_, List.mem_dedup.mpr (List.mem_map_of_mem hr), statRow_group hids hpaths hr⟩
  · apply (List.nodup_dedup _).map_on
    intro fid hfid fid' hfid' heq
    obtain ⟨r, hr, rfl⟩ := List.mem_map.mp (List.mem_dedup.mp hfid)
    obtain ⟨r', hr', rfl⟩ := List.mem_map.mp (List.mem_dedup.mp hfid')
    rw [statRow_group hids hpaths hr, statRow_group hids hpaths hr'] at heq
    exact (fileId_eq_iff hids hpaths hr hr').mpr (congrArg HotspotEntry.name heq)

omit hids hpaths in
private theorem dirEntries_eq (t : Tables) : hotspotEntries (t.scanAllFileAccesses hotspotDirScanCb ∅) =
    t.cmdEntries true := by
  rw [cmdEntries, accumulate, getAllFileAccesses, List.foldl_map]
  simp only [scanAllFileAccesses, hotspotDirScanCb, dirScanKey_eq]
  rfl

private theorem webEntries_perm (byDir : Bool) : (t.webEntries byDir).Perm (t.cmdEntries byDir) := by
  cases byDir with
  | true => exact .of_eq (dirEntries_eq t)
  | false => exact statEntries_perm hids hpaths

end

/-- Both viewers count the same: one record for each file, whichever way the rows are grouped, and the same records
for the directories. -/
theorem hotspots_agree (t : Tables) (hids : (t.files.map (·.id)).Nodup) (hpaths : (t.files.map (·.path)).Nodup) :
    (t.getFileStatsGrouped.map FileStatRow.entry).Perm (t.cmdEntries false) ∧
    hotspotEntries (t.scanAllFileAccesses hotspotDirScanCb ∅) = t.cmdEntries true :=
  ⟨statEntries_perm hids hpaths, dirEntries_eq t⟩

/-- A file that is read and written, and one outside every directory. -/
theorem hotspots_agree_two : let t : Tables := {
      files := [⟨1, "/tmp/o".toList⟩, ⟨2, "x".toList⟩]
      fileAccesses := [⟨1, 5, 1, 2, 3, 10⟩, ⟨2, 6, 1, 0, 3, 11⟩, ⟨3, 6, 2, 19, 3, 12⟩, ⟨4, 6, 1, 7, 3, 13⟩] }
    (t.getFileStatsGrouped.map FileStatRow.entry).Perm (t.cmdEntries false) ∧
    hotspotEntries (t.scanAllFileAccesses hotspotDirScanCb ∅) = t.cmdEntries true ∧
    t.getFileStatsGrouped.map FileStatRow.entry = [⟨"x".toList, 1, 0, 0, 1⟩, ⟨"/tmp/o".toList, 3, 2, 1, 2⟩] := by
  intro t
  obtain ⟨hfiles, hdirs⟩ := hotspots_agree t (by decide) (by decide)
  exact ⟨hfiles, hdirs, by decide⟩

/-- Both viewers show the same numbers from the top, whichever way each of them orders equal ones. -/
private theorem shown_hotspots {sort sort' : List HotspotEntry → List HotspotEntry} (hsort : SortsByTotal sort)
    (hsort' : SortsByTotal sort') (t : Tables) (hids : (t.files.map (·.id)).Nodup)
    (hpaths : (t.files.map (·.path)).Nodup)
    (topN : Int) (byDir : Bool) :
    (t.handleHotspots sort topN byDir).map (·.total) = (cmdHotspot sort' t topN byDir).map (·.total) := by
  have hcmd : cmdHotspot sort' t topN byDir = topHotspots sort' topN (t.cmdEntries byDir) := by
    rw [cmdHotspot]
    split
    · rename_i hnone
      have hnil : t.cmdEntries byDir = [] := by
        rw [cmdEntries, hnone]
        rfl
      rw [hnil, topHotspots, (hsort'.perm []).eq_nil, List.take_nil]
    · rfl
  rw [hcmd, handleHotspots]
  exact map_total_topHotspots hsort hsort' (webEntries_perm hids hpaths byDir) topN

end Tables
end Bdtrace
