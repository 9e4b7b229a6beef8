import Bdtrace.Web.FilePages

/-! The listings of the processes that access one file or the files below a directory. -/
namespace Bdtrace
open Std (TreeMap TreeSet)
namespace Tables

/-- Accesses put together: the names of their modes, each once and in the order of the codes, and the earliest time. -/
structure Merged (rows : List StoredAccess) (modeStr : Str) (timestampUs : Int) : Prop where
  modes : ∃ modes : List Int, modes.Pairwise (· < ·) ∧ (∀ m, m ∈ modes ↔ ∃ r ∈ rows, r.mode = m) ∧
    modeStr = modesText modes
  earliest : IsLeast {ts | ∃ r ∈ rows, r.timestampUs = ts} timestampUs

private theorem merged_gathered {rows : List StoredAccess} {pa : PidAccess}
    (h : Tally.gathered PidAccess.add rows = some pa) :
    Merged rows (modesText pa.modes.toList) pa.firstTimestamp := by
  suffices hset : (∀ m, m ∈ pa.modes ↔ ∃ r ∈ rows, r.mode = m) ∧
      IsLeast {ts | ∃ r ∈ rows, r.timestampUs = ts} pa.firstTimestamp by
    refine ⟨⟨pa.modes.toList, ?_, fun m => by rw [TreeSet.mem_toList, hset.1], rfl⟩, hset.2⟩
    exact TreeSet.ordered_toList.imp fun hlt => compare_lt_iff_lt.mp hlt
  induction rows using List.reverseRecOn generalizing pa with
  | nil => cases h
  | append_singleton rows a ih =>
    rw [Tally.gathered, List.foldl_append, ← Tally.gathered, List.foldl_cons, List.foldl_nil, Option.some.injEq] at h
    subst h
    cases hrows : Tally.gathered PidAccess.add rows with
    | none =>
      have hnil : rows = [] := by
        cases rows using List.reverseRecOn with
        | nil => rfl
        | append_singleton rows b => simp [Tally.gathered] at hrows
      subst hnil
      refine ⟨fun m => ?_, ⟨a, by simp, rfl⟩, fun ts hts => ?_⟩
      · simp [PidAccess.add, TreeSet.mem_insert]
      · obtain ⟨r, hr, rfl⟩ := hts
        rw [List.nil_append, List.mem_singleton] at hr
        rw [hr, PidAccess.add]
    | some pa =>
      obtain ⟨hmodes, hleast, hlower⟩ := ih hrows
      refine ⟨fun m => ?_, ?_, fun ts hts => ?_⟩
      · simp only [PidAccess.add, TreeSet.mem_insert, compare_eq_iff_eq, hmodes, List.mem_append, List.mem_singleton]
        constructor
        · rintro (rfl | ⟨r, hr, hm⟩)
          · exact ⟨a, .inr rfl, rfl⟩
          · exact ⟨r, .inl hr, hm⟩
        · rintro ⟨r, hr | rfl, hm⟩
          · exact .inr ⟨r, hr, hm⟩
          · exact .inl hm
      · simp only [PidAccess.add]
        split
        · exact ⟨a, by simp, rfl⟩
        · obtain ⟨r, hr, hts⟩ := hleast
          exact ⟨r, List.mem_append_left _ hr, hts⟩
      · obtain ⟨r, hr, rfl⟩ := hts
        simp only [PidAccess.add]
        rcases List.mem_append.mp hr with hr | hr
        · have hle := hlower ⟨r, hr, rfl⟩
          split <;> omega
        · rw [List.mem_singleton.mp hr]
          split <;> omega

/-- The row of a process that accessed a file. -/
def accessorRow (t : Tables) (pid : Int) (pa : PidAccess) : AccessorJson :=
  ⟨pid, ((t.getProcess pid).map (·.cmdline)).getD [], -1, modesText pa.modes.toList, pa.firstTimestamp,
    (t.getProcess pid).map writeProcInfo⟩

theorem getElem?_foldl_insert {procs : List ProcessRecord} (hk : (procs.map (·.pid)).Nodup)
    (m : TreeMap Int ProcessRecord)
    (p : Int) : (procs.foldl (fun out r => out.insert r.pid r) m)[p]? = (procs.find? fun r => r.pid = p).or m[p]? := by
  induction procs generalizing m with
  | nil => rfl
  | cons r rest ih =>
    rw [List.map_cons, List.nodup_cons] at hk
    rw [List.foldl_cons, ih hk.2, TreeMap.getElem?_insert, List.find?_cons]
    by_cases hp : r.pid = p
    · have hnone : (rest.find? fun r => r.pid = p) = none :=
        List.find?_eq_none.mpr fun s hs => by
          simpa using fun h : s.pid = p => hk.1 (List.mem_map.mpr ⟨s, hs, h.trans hp.symm⟩)
      simp [hp, hnone]
    · simp [hp]

private theorem getElem?_getProcessesByPids {t : Tables} (hk : t.pids.Nodup) {pids : TreeSet Int}
    {p : Int} (hp : p ∈ pids) :
    (t.getProcessesByPids pids)[p]? = t.getProcess p := by
  have hfilter : ((t.processes.filter fun r => r.pid ∈ pids).map (·.pid)).Nodup :=
    hk.sublist (List.filter_sublist.map _)
  rw [getProcessesByPids, getElem?_foldl_insert hfilter, TreeMap.getElem?_emptyc, Option.or_none,
    List.find?_filter, getProcess]
  congr 1
  funext r
  by_cases hr : r.pid = p
  · simp [hr, hp]
  · simp [hr]

/-- The row of a process and a file below a directory. -/
def prefixRow (t : Tables) (key : Int ×ₗ Str) (pa : PidAccess) : PrefixRowJson :=
  ⟨(ofLex key).1, ((t.getProcess (ofLex key).1).map (·.cmdline)).getD [], (ofLex key).2, modesText pa.modes.toList,
    pa.firstTimestamp, (t.getProcess (ofLex key).1).map writeProcInfo⟩

section Rows
variable {t : Tables}

private theorem mem_uniquePids {accesses : List StoredAccess} {p : Int} :
    p ∈ accesses.foldl (fun s a => s.insert a.pid) (∅ : TreeSet Int) ↔ ∃ a ∈ accesses, a.pid = p := by
  have hmap : accesses.foldl (fun s a => s.insert a.pid) (∅ : TreeSet Int) =
      (accesses.map (·.pid)).foldl (fun s p => s.insert p) ∅ := List.foldl_map.symm
  rw [hmap, DependencyGraph.mem_foldl_insert, List.mem_map]
  exact or_iff_left TreeSet.not_mem_emptyc

private theorem handleFilesByPath_eq (hk : t.pids.Nodup) (path : Str) : t.handleFilesByPath path =
    (Tally.gather (fun a : StoredAccess => some a.pid) PidAccess.add (t.getFileAccessesByName path)).toList.map fun e =>
      accessorRow t e.1 e.2 := by
  apply List.map_congr_left
  intro e (he : e ∈ (Tally.gather (fun a : StoredAccess => some a.pid) PidAccess.add
    (t.getFileAccessesByName path)).toList)
  obtain ⟨a, ha, hkey⟩ := Tally.isSome_gathered.mp (Option.isSome_iff_exists.mpr ⟨_, Tally.mem_toList_gather.mp he⟩)
  have hcached := getElem?_getProcessesByPids hk (mem_uniquePids.mpr ⟨a, ha, Option.some.inj hkey⟩)
  simp only [hcached]
  rfl

private theorem handleFilesByPrefix_eq (hk : t.pids.Nodup) (pfx : Str) : t.handleFilesByPrefix pfx =
    (Tally.gather (fun a : StoredAccess => some (toLex (a.pid, a.path.getD []))) PidAccess.add
      (t.getFileAccessesByPrefix pfx)).toList.map fun e => prefixRow t e.1 e.2 := by
  apply List.map_congr_left
  intro e (he : e ∈ (Tally.gather (fun a : StoredAccess => some (toLex (a.pid, a.path.getD []))) PidAccess.add
    (t.getFileAccessesByPrefix pfx)).toList)
  obtain ⟨a, ha, hkey⟩ := Tally.isSome_gathered.mp (Option.isSome_iff_exists.mpr ⟨_, Tally.mem_toList_gather.mp he⟩)
  have hpid : a.pid = (ofLex e.1).1 := by rw [← Option.some.inj hkey, ofLex_toLex]
  have hcached := getElem?_getProcessesByPids hk (mem_uniquePids.mpr ⟨a, ha, hpid⟩)
  simp only [hcached]
  rfl

variable (hids : (t.files.map (·.id)).Nodup) (hpaths : (t.files.map (·.path)).Nodup)
include hids hpaths

private theorem fileId_eq_some_iff {r : JoinedAccess} (hr : r ∈ t.joined) (path : Str) :
    t.fileId path = some r.row.fileId ↔ r.path = path := by
  have hfile := (mem_joined.mp hr).2
  rw [fileId, Option.map_eq_some_iff]
  constructor
  · rintro ⟨f, hf, hid⟩
    obtain rfl := List.inj_on_of_nodup_map hids (List.mem_of_find?_eq_some hf) hfile hid
    simpa using List.find?_some hf
  · rintro rfl
    obtain ⟨f, hf⟩ := Option.isSome_iff_exists.mp
      (List.find?_isSome.mpr ⟨_, hfile, decide_eq_true rfl⟩ : (t.files.find? fun f => f.path = r.path).isSome)
    have hpath : f.path = r.path := by simpa using List.find?_some hf
    obtain rfl := List.inj_on_of_nodup_map hpaths (List.mem_of_find?_eq_some hf) hfile hpath
    exact ⟨_, hf, rfl⟩

private theorem getFileAccessesByName_eq {path : Str} (hnul : '\x00' ∉ path) :
    t.getFileAccessesByName path = (t.joined.filter fun r => r.path = path).map JoinedAccess.stored := by
  rw [getFileAccessesByName, cString_of_notMem hnul]
  congr 1
  apply List.filter_congr
  intro r hr
  exact decide_eq_decide.mpr (fileId_eq_some_iff hids hpaths hr path)

end Rows

/-- The processes that accessed a file, in ascending order, each with what it did there. -/
structure AccessorRows (t : Tables) (path : Str) (rows : List AccessorJson) : Prop where
  ascending : (rows.map (·.pid)).Pairwise (· < ·)
  pids : ∀ p, p ∈ rows.map (·.pid) ↔ ∃ r ∈ t.joined, r.path = path ∧ r.row.pid = p
  merged : ∀ row ∈ rows, Merged ((t.joined.filter fun r => r.path = path ∧ r.row.pid = row.pid).map JoinedAccess.stored)
    row.modeStr row.timestampUs
  process : ∀ row ∈ rows, row.cmdline = ((t.getProcess row.pid).map (·.cmdline)).getD [] ∧
    row.info = (t.getProcess row.pid).map writeProcInfo

/-- A row below a directory without the name of its file. -/
def rowAccessor (row : PrefixRowJson) : AccessorJson :=
  ⟨row.pid, row.cmdline, -1, row.modeStr, row.timestampUs, row.info⟩

/-- The pages are the whole listing, which counts for each file the processes that are listed for it, and the listing
below a directory is made of the listings of the files there. -/
structure FilesListed (t : Tables) : Prop where
  pages : ∀ limit : Nat, 0 < limit → t.getFileStatsGrouped.length + limit < 2 ^ 31 → t.handleFiles [] =
    .all ((List.range ((t.getFileStatsGrouped.length + limit - 1) / limit)).flatMap fun k =>
      (t.handleFiles (pageQuery (k * limit : Nat) limit)).files)
  accessors : ∀ path, '\x00' ∉ path → AccessorRows t path (t.handleFilesByPath path)
  counted : ∀ row ∈ t.getFileStatsGrouped, (t.handleFilesByPath row.filename).length = row.processCount
  below : ∀ pfx, pfx ≠ [] → ∀ f, '\x00' ∉ f →
    ((t.handleFilesByPrefix pfx).filter fun row => row.filename = f).map rowAccessor =
    if completePrefix pfx <+: f then t.handleFilesByPath f else []

/-- Entries in the order of their keys, for one file in the order of the processes. -/
private theorem strictly_ordered (m : TreeMap (Int ×ₗ Str) PidAccess) (f : Str) :
    ((m.toList.filter fun e => (ofLex e.1).2 = f).map fun e => ((ofLex e.1).1, e.2)).Pairwise fun a b => a.1 < b.1 := by
  rw [List.pairwise_map]
  refine (TreeMap.ordered_keys_toList.sublist List.filter_sublist).imp_of_mem fun he he' hlt => ?_
  have hfile := of_decide_eq_true (List.mem_filter.mp he).2
  have hfile' := of_decide_eq_true (List.mem_filter.mp he').2
  rw [Prod.Lex.compare_def] at hlt
  rcases Ordering.then_eq_lt.mp hlt with hfst | ⟨-, hsnd⟩
  · exact compare_lt_iff_lt.mp hfst
  · have hsame : compare f f = .eq := Std.ReflCmp.compare_self
    rw [compareOn, hfile, hfile', hsame] at hsnd
    cases hsnd

section Listed
variable {t : Tables} (hids : (t.files.map (·.id)).Nodup) (hpaths : (t.files.map (·.path)).Nodup)
  (hnul : ∀ f ∈ t.files, '\x00' ∉ f.path) (hk : t.pids.Nodup)
include hids hpaths hk

theorem accessorRows_byPath {path : Str} (hpath : '\x00' ∉ path) : AccessorRows t path (t.handleFilesByPath path) := by
  have hname := getFileAccessesByName_eq hids hpaths hpath
  rw [handleFilesByPath_eq hk, hname]
  have hkeys : (((Tally.gather (fun a : StoredAccess => some a.pid) PidAccess.add
      ((t.joined.filter fun r => r.path = path).map JoinedAccess.stored)).toList.map fun e =>
        accessorRow t e.1 e.2).map (·.pid)) =
      (Tally.gather (fun a : StoredAccess => some a.pid) PidAccess.add
        ((t.joined.filter fun r => r.path = path).map JoinedAccess.stored)).toList.map Prod.fst := by
    rw [List.map_map]
    rfl
  refine ⟨?_, fun p => ?_, fun row hrow => ?_, fun row hrow => ?_⟩
  · rw [hkeys, List.pairwise_map]
    exact TreeMap.ordered_keys_toList.imp fun h => compare_lt_iff_lt.mp h
  · rw [hkeys, Tally.mem_keys_gather]
    simp only [List.mem_map, List.mem_filter, decide_eq_true_eq, Option.some.injEq]
    constructor
    · rintro ⟨a, ⟨r, ⟨hr, hrpath⟩, rfl⟩, hpid⟩
      exact ⟨r, hr, hrpath, hpid⟩
    · rintro ⟨r, hr, hrpath, hpid⟩
      exact ⟨r.stored, ⟨r, ⟨hr, hrpath⟩, rfl⟩, hpid⟩
  · obtain ⟨e, he, rfl⟩ := List.mem_map.mp hrow
    have hmerged := merged_gathered (Tally.mem_toList_gather.mp he)
    have hrows : Tally.rowsOf (fun a : StoredAccess => some a.pid)
        ((t.joined.filter fun r => r.path = path).map JoinedAccess.stored) e.1 =
        (t.joined.filter fun r => r.path = path ∧ r.row.pid = e.1).map JoinedAccess.stored := by
      rw [Tally.rowsOf_some, List.filter_map, List.filter_filter]
      congr 1
      apply List.filter_congr
      intro r _
      rw [Bool.and_comm]
      exact (Bool.decide_and _ _).symm
    rw [hrows] at hmerged
    exact hmerged
  · obtain ⟨e, -, rfl⟩ := List.mem_map.mp hrow
    exact ⟨rfl, rfl⟩

include hnul

private theorem length_byPath {row : FileStatRow} (hrow : row ∈ t.getFileStatsGrouped) :
    (t.handleFilesByPath row.filename).length = row.processCount := by
  obtain ⟨fid, hfid, rfl⟩ := List.mem_map.mp hrow
  obtain ⟨r, hr, rfl⟩ := List.mem_map.mp (List.mem_dedup.mp hfid)
  have hentry := statRow_group hids hpaths hr
  have hname : (statRow (t.joined.filter fun r' => r'.row.fileId = r.row.fileId)).filename = r.path :=
    congrArg HotspotEntry.name hentry
  have hnum : (statRow (t.joined.filter fun r' => r'.row.fileId = r.row.fileId)).processCount =
      ((t.joined.filter fun r' => r'.path = r.path).map (·.row.pid)).dedup.length :=
        congrArg HotspotEntry.numProcs hentry
  have hrows := accessorRows_byPath hids hpaths hk (hnul _ (mem_joined.mp hr).2)
  have hsame : ((t.handleFilesByPath r.path).map (·.pid)).Perm
      ((t.joined.filter fun r' => r'.path = r.path).map (·.row.pid)).dedup := by
    apply (List.perm_ext_iff_of_nodup (hrows.ascending.imp ne_of_lt) (List.nodup_dedup _)).mpr
    intro p
    rw [hrows.pids, List.mem_dedup, List.mem_map]
    simp only [List.mem_filter, decide_eq_true_eq, and_assoc]
  rw [hname, hnum, ← hsame.length_eq, List.length_map]

omit hk in
/-- The rows below a prefix that count for a process and a file: those of the file. -/
private theorem rowsOf_prefix {pfx f : Str} (hpfx : pfx ≠ []) (hf : '\x00' ∉ f) (p : Int) :
    Tally.rowsOf (fun a : StoredAccess => some (toLex (a.pid, a.path.getD []))) (t.getFileAccessesByPrefix pfx)
        (toLex (p, f)) =
      if completePrefix pfx <+: f then
        Tally.rowsOf (fun a : StoredAccess => some a.pid) (t.getFileAccessesByName f) p else [] := by
  have hkey : ∀ r : JoinedAccess, toLex (r.stored.pid, r.stored.path.getD []) = toLex (p, f) ↔
      r.path = f ∧ r.row.pid = p :=
    fun r => by simp [JoinedAccess.stored, and_comm]
  rw [getFileAccessesByPrefix, joinedBetween_eq hnul hpfx, getFileAccessesByName_eq hids hpaths hf, Tally.rowsOf_some,
    Tally.rowsOf_some, List.filter_map, List.filter_map, List.filter_filter, List.filter_filter]
  split
  · rename_i hpre
    congr 1
    apply List.filter_congr
    intro r _
    rw [Bool.eq_iff_iff, Bool.and_eq_true, Bool.and_eq_true, Function.comp_apply, Function.comp_apply,
      decide_eq_true_eq, decide_eq_true_eq, decide_eq_true_eq, List.isPrefixOf_iff_prefix, hkey]
    constructor
    · rintro ⟨⟨hpath, hpid⟩, -⟩
      exact ⟨hpid, hpath⟩
    · rintro ⟨hpid, rfl⟩
      exact ⟨⟨rfl, hpid⟩, hpre⟩
  · rename_i hpre
    rw [List.filter_eq_nil_iff.mpr, List.map_nil]
    intro r _
    rw [Bool.and_eq_true, Function.comp_apply, decide_eq_true_eq, List.isPrefixOf_iff_prefix, hkey]
    rintro ⟨⟨rfl, -⟩, hin⟩
    exact hpre hin

omit hk in
/-- The totals below a prefix that are of one file: the file's totals for each process. -/
private theorem gather_prefix {pfx f : Str} (hpfx : pfx ≠ []) (hf : '\x00' ∉ f) :
    (((Tally.gather (fun a : StoredAccess => some (toLex (a.pid, a.path.getD []))) PidAccess.add
        (t.getFileAccessesByPrefix pfx)).toList.filter fun e => (ofLex e.1).2 = f).map fun e =>
          ((ofLex e.1).1, e.2)) =
      if completePrefix pfx <+: f then
        (Tally.gather (fun a : StoredAccess => some a.pid) PidAccess.add (t.getFileAccessesByName f)).toList
      else [] := by
  obtain ⟨grouped, hgrouped⟩ : ∃ g, g = Tally.gather (fun a : StoredAccess => some (toLex (a.pid, a.path.getD [])))
    PidAccess.add (t.getFileAccessesByPrefix pfx) := ⟨_, rfl⟩
  rw [← hgrouped]
  have hmem : ∀ e : Int × PidAccess, e ∈ ((grouped.toList.filter fun e => (ofLex e.1).2 = f).map fun e =>
      ((ofLex e.1).1, e.2)) ↔
      Tally.gathered PidAccess.add (if completePrefix pfx <+: f then
        Tally.rowsOf (fun a : StoredAccess => some a.pid) (t.getFileAccessesByName f) e.1 else []) = some e.2 := by
    intro e
    rw [← rowsOf_prefix hids hpaths hnul hpfx hf, List.mem_map]
    constructor
    · rintro ⟨e', he', rfl⟩
      obtain ⟨hin, hfile⟩ := List.mem_filter.mp he'
      rw [decide_eq_true_eq] at hfile
      rw [hgrouped] at hin
      subst hfile
      exact Tally.mem_toList_gather.mp hin
    · intro hsome
      have hin := Tally.mem_toList_gather (e := (toLex (e.1, f), e.2)).mpr hsome
      exact ⟨(toLex (e.1, f), e.2), List.mem_filter.mpr ⟨hgrouped ▸ hin, by simp⟩, rfl⟩
  split
  · rename_i hpre
    simp only [if_pos hpre] at hmem
    apply (strictly_ordered grouped f).eq_of_mem_iff (TreeMap.ordered_keys_toList.imp fun h => compare_lt_iff_lt.mp h)
    intro e
    rw [hmem, Tally.mem_toList_gather]
  · rename_i hpre
    simp only [if_neg hpre] at hmem
    exact List.eq_nil_iff_forall_not_mem.mpr fun e he => Option.some_ne_none _ ((hmem e).mp he).symm

theorem byPrefix_filter {pfx f : Str} (hpfx : pfx ≠ []) (hf : '\x00' ∉ f) :
    ((t.handleFilesByPrefix pfx).filter fun row => row.filename = f).map rowAccessor =
      if completePrefix pfx <+: f then t.handleFilesByPath f else [] := by
  have hsplit : (((t.handleFilesByPrefix pfx).filter fun row => row.filename = f).map rowAccessor) =
      (((Tally.gather (fun a : StoredAccess => some (toLex (a.pid, a.path.getD []))) PidAccess.add
        (t.getFileAccessesByPrefix pfx)).toList.filter fun e => (ofLex e.1).2 = f).map fun e =>
          ((ofLex e.1).1, e.2)).map fun e => accessorRow t e.1 e.2 := by
    rw [handleFilesByPrefix_eq hk, List.filter_map, List.map_map, List.map_map]
    rfl
  rw [hsplit, gather_prefix hids hpaths hnul hpfx hf, handleFilesByPath_eq hk]
  split <;> rfl

end Listed

theorem files_listed (t : Tables) (hids : (t.files.map (·.id)).Nodup) (hpaths : (t.files.map (·.path)).Nodup)
    (hnul : ∀ f ∈ t.files, '\x00' ∉ f.path) (hk : t.pids.Nodup) : FilesListed t where
  pages limit hlimit hfit := by
    have hoffset : getQueryParam [] "offset".toList = [] := by decide
    have hlimit' : getQueryParam [] "limit".toList = [] := by decide
    rw [pages_tile hlimit hfit]
    simp only [handleFiles, hoffset, hlimit']
    rfl
  accessors _ hpath := accessorRows_byPath hids hpaths hk hpath
  counted _ hrow := length_byPath hids hpaths hnul hk hrow
  below _ hpfx _ hf := byPrefix_filter hids hpaths hnul hk hpfx hf

/-- A header that two compilers read, one of them twice. -/
def sharedHeader : Tables where
  processes := [{ pid := 1, ppid := 0, cmdline := "cc a.c".toList },
    { pid := 2, ppid := 0, cmdline := "cc b.c".toList }]
  files := [⟨1, "/src/a.h".toList⟩, ⟨2, "/src/b.c".toList⟩]
  fileAccesses := [⟨1, 2, 1, 3, 0, 30⟩, ⟨2, 1, 1, 0, 3, 20⟩, ⟨3, 2, 1, 0, 3, 10⟩, ⟨4, 2, 2, 0, 4, 15⟩]

theorem files_listed_sharedHeader : FilesListed sharedHeader :=
  files_listed sharedHeader (by decide) (by decide) (by decide) (by decide)

example : (sharedHeader.handleFilesByPath "/src/a.h".toList).map (fun row => (row.pid, row.modeStr, row.timestampUs)) =
    [(1, "R".toList, 20), (2, "R,ST".toList, 10)] := by decide +kernel

end Tables
end Bdtrace
