import Bdtrace.View.DescendantTotals
import Bdtrace.View.ProcessIo
import Bdtrace.View.RebuildSearch
import Bdtrace.Web.CriticalPath
import Bdtrace.Web.FileDirectories
import Mathlib.Algebra.BigOperators.Ring.Finset

/-! The totals that the tree shows for a process and the files that it lists when the process is selected. -/
namespace Bdtrace
open Std (TreeMap TreeSet)
open Worklist (Reaches)
open DependencyGraph (Aggregates recordOf)

/-- `mode_str`. -/
def modeStr (mode : Int) : Str :=
  match mode with
  | 0 => "R".toList | 1 => "W".toList | 2 => "RW".toList | 3 => "ST".toList | 4 => "AC".toList | 5 => "EX".toList
  | 6 => "UL".toList | 7 => "RS".toList | 8 => "RD".toList | 9 => "RL".toList | 10 => "MD".toList
  | 11 => "LS".toList | 12 => "LD".toList | 13 => "SY".toList | 14 => "SL".toList | 15 => "CM".toList
  | 16 => "CO".toList | 17 => "TR".toList | 18 => "MN".toList | 19 => "UT".toList | 20 => "CD".toList
  | _ => "?".toList

/-- An access as `handle_process_files` writes it. -/
structure FileAccessJson where
  filename : Str
  mode : Int
  modeStr : Str
  fd : Int
  timestampUs : Int
  deriving DecidableEq, Repr

def Tables.StoredAccess.json (a : Tables.StoredAccess) : FileAccessJson :=
  ⟨a.path.getD [], a.mode, Bdtrace.modeStr a.mode, a.detail, a.timestampUs⟩

/-- What the server keeps from the first request that needs the graph on. -/
structure LoadedGraph where
  graph : DependencyGraph
  descStats : StatsCache
  totalCpuUs : Int

/-- `get_dep_graph`. -/
def getDepGraph (fuel : Nat) (t : Tables) : Option LoadedGraph :=
  let g := buildDependencyGraph t
  (computeDescAll g fuel g.procMap.keys ∅).map fun stats =>
    ⟨g, stats, g.procMap.toList.foldl (fun total e => total + (e.2.userTimeUs + e.2.sysTimeUs)) 0⟩

/-- `lookup_desc` in a loaded graph. -/
def LoadedGraph.lookupDesc (loaded : LoadedGraph) (pid : Int) : Option DescendantStats := loaded.descStats[pid]?

namespace Tables
variable (t : Tables)

/-- `Database::get_file_accesses_by_pid`. -/
def fileAccessesByPid (pid : Int) : List StoredAccess := t.accesses.filter fun a => a.pid = pid ∧ a.path.isSome

/-- `GET /api/processes/<pid>/files`; `none` when the walk down the tree needs more fuel. -/
def handleProcessFiles (fuel : Nat) (pid : Int) (query : Str) : Option (List FileAccessJson) :=
  let tree := getQueryParam query "tree".toList = ['1']
  if tree then
    (t.getDescendantPids fuel pid).map fun found =>
      let descPids := (found.foldl (fun s p => s.insert p) (∅ : TreeSet Int)).insert pid
      (t.fileAccessesByPids descPids).map (·.json)
  else some ((t.fileAccessesByPid pid).map (·.json))

end Tables

/-- A path with a component behind the first slash. -/
def belowRoot (path : Str) : Bool :=
  match path with
  | '/' :: rest => component rest ≠ []
  | _ => false

/-- The totals of the loaded graph and the answers about files agree: a process has as many files as its list is long,
its directories count those of them that lie below the root, and the roots share everything among them. -/
structure TotalsAgree (t : Tables) (fuel : Nat) (loaded : LoadedGraph) : Prop where
  files : ∀ r ∈ t.processes, ∃ ds, loaded.lookupDesc r.pid = some ds ∧
    ∀ query, ∃ files, t.handleProcessFiles fuel r.pid query = some files ∧
      (files.length : Int) = if getQueryParam query "tree".toList = ['1'] then ds.descFileCount else r.fileCount
  directories : ∀ r ∈ t.processes, ∀ query, getQueryParam query "prefix".toList ∈ [[], ['/']] → ∃ files dirs,
    t.handleProcessFiles fuel r.pid query = some files ∧ t.handleProcessFiledirs fuel r.pid query = some dirs ∧
      dirs.totalCount = (files.filter fun f => belowRoot f.filename).length
  rootFiles : ((rootPids t.allProcesses).map fun p => ((loaded.lookupDesc p).getD {}).descFileCount).sum =
    (t.accesses.filter fun a => a.pid ∈ t.pids).length
  rootCpu : ((rootPids t.allProcesses).map fun p => ((loaded.lookupDesc p).getD {}).descCpuUs).sum = loaded.totalCpuUs

/-! ### The lists -/

section Lists
variable {t : Tables}

private theorem isSome_path (hs : t.Sound) {a : Tables.StoredAccess} (ha : a ∈ t.accesses) : a.path.isSome := by
  obtain ⟨row, hrow, rfl⟩ := List.mem_map.mp ha
  obtain ⟨f, hf, hid⟩ := List.mem_map.mp (hs.accessFiles row hrow)
  exact Option.isSome_iff_exists.mpr ⟨f.path, Tables.pathOf_of_mem hs.fileIds (hid ▸ hf)⟩

/-- The processes whose files a query asks for. -/
def asked (t : Tables) (pid : Int) (query : Str) : Int → Prop := fun x =>
  x = pid ∨ (getQueryParam query "tree".toList = ['1'] ∧ Relation.TransGen t.Child pid x)

/-- The files are the accesses of the processes asked for. -/
private theorem handleProcessFiles_eq (hs : t.Sound) {fuel : Nat} {pid : Int} {found : List Int}
    (hfound : t.getDescendantPids fuel pid = some found) (query : Str) {members : Int → Bool}
    (hmembers : ∀ x, members x = true ↔ asked t pid query x) :
    t.handleProcessFiles fuel pid query = some ((t.accesses.filter fun a => members a.pid).map (·.json)) := by
  have hpath : ∀ {a : Tables.StoredAccess}, a ∈ t.accesses → a.path.isSome = true := isSome_path hs
  rw [Tables.handleProcessFiles]
  split
  · rename_i htree
    rw [hfound, Option.map_some]
    refine congrArg (fun l : List Tables.StoredAccess => some (l.map (·.json))) ?_
    apply List.filter_congr
    intro a ha
    rw [Bool.eq_iff_iff, decide_eq_true_eq, hmembers, asked, Std.TreeSet.mem_insert, compare_eq_iff_eq,
      DependencyGraph.mem_foldl_insert, mem_getDescendantPids hfound]
    simp only [htree, hpath ha, Std.TreeSet.not_mem_emptyc, true_and, and_true, or_false, eq_comm]
  · rename_i htree
    refine congrArg (fun l : List Tables.StoredAccess => some (l.map (·.json))) ?_
    apply List.filter_congr
    intro a ha
    rw [Bool.eq_iff_iff, decide_eq_true_eq, hmembers, asked]
    simp only [htree, hpath ha, false_and, or_false, and_true]

/-- The directories below the root count the files of the same processes that lie below it. -/
private theorem handleProcessFiledirs_eq {fuel : Nat} {pid : Int} {found : List Int}
    (hfound : t.getDescendantPids fuel pid = some found) {query : Str}
    (hquery : getQueryParam query "prefix".toList ∈ [[], ['/']]) :
    ∃ pids : TreeSet Int, (∀ x, x ∈ pids ↔ asked t pid query x) ∧
      t.handleProcessFiledirs fuel pid query = some (t.filedirs pids ['/']) := by
  have hpfx : (if getQueryParam query "prefix".toList = [] then ['/']
      else getQueryParam query "prefix".toList) = ['/'] := by
    simp only [List.mem_cons, List.not_mem_nil, or_false] at hquery
    rcases hquery with hq | hq
    · rw [if_pos hq]
    · rw [hq, if_neg (List.cons_ne_nil _ _)]
  rw [Tables.handleProcessFiledirs]
  simp only [hpfx, hfound]
  by_cases htree : getQueryParam query "tree".toList = ['1']
  · refine ⟨_, fun x => ?_, by rw [if_pos htree]; rfl⟩
    rw [DependencyGraph.mem_foldl_insert, mem_getDescendantPids hfound, asked, Std.TreeSet.mem_insert,
      compare_eq_iff_eq,
      or_comm]
    simp only [htree, Std.TreeSet.not_mem_emptyc, true_and, or_false, eq_comm]
  · refine ⟨_, fun x => ?_, by rw [if_neg htree]; rfl⟩
    rw [asked, Std.TreeSet.mem_insert, compare_eq_iff_eq]
    simp only [htree, Std.TreeSet.not_mem_emptyc, false_and, or_false, eq_comm]

private theorem belowRoot_getD (path : Option Str) :
    (decide (component ((path.getD []).drop 1) ≠ []) && path.any ['/'].isPrefixOf) = belowRoot (path.getD []) := by
  rcases path with _ | _ | ⟨c, path⟩
  · rfl
  · rfl
  · by_cases hc : c = '/'
    · simp [belowRoot, hc]
    · simp [belowRoot, hc, List.isPrefixOf, Ne.symm hc]

private theorem totalCount_filedirs (hids : (t.files.map (·.id)).Nodup) (hnul : ∀ f ∈ t.files, '\x00' ∉ f.path)
    (pids : TreeSet Int) : (t.filedirs pids ['/']).totalCount =
      (((t.accesses.filter fun a => a.pid ∈ pids).map (·.json)).filter fun f => belowRoot f.filename).length := by
  rw [(lists_filedirs hids hnul pids (List.cons_ne_nil _ _)).total, completePrefix_of_slash rfl, named, cutPaths]
  simp only [List.filter_map, List.map_map, List.length_map, List.filter_filter]
  apply congrArg List.length
  apply List.filter_congr
  intro a _
  rw [Bool.and_left_comm, Bool.and_comm]
  exact congrArg (· && decide (a.pid ∈ pids)) (belowRoot_getD a.path)

private theorem getDescendantPids_uniform (h : t.Acyclic) (pids : List Int) :
    ∃ n, ∀ fuel, n ≤ fuel → ∀ p ∈ pids, ∃ found, t.getDescendantPids fuel p = some found := by
  induction pids with
  | nil => exact ⟨0, fun _ _ p hp => (by cases hp)⟩
  | cons p pids ih =>
    obtain ⟨n, hn⟩ := ih
    obtain ⟨m, hm⟩ := getDescendantPids_total h p
    refine ⟨max n m, fun fuel hfuel => List.forall_mem_cons.mpr ⟨hm fuel ?_, hn fuel ?_⟩⟩ <;> omega

end Lists

/-! ### The totals -/

section Totals
variable {t : Tables}

private theorem recordOf_of_mem (hk : t.pids.Nodup) {r : ProcessRecord} (hr : r ∈ t.processes) :
    (buildDependencyGraph t).recordOf r.pid = r := by
  rw [recordOf, (DependencyGraph.getElem?_procMap hk r.pid r).mpr ⟨hr, rfl⟩, Option.getD_some]

/-- With counted rows a process has as many files as accesses are stored for it. -/
private theorem fileCount_recordOf (hk : t.pids.Nodup) (hcounted : t.populateCounts = t) {p : Int} (hp : p ∈ t.pids) :
    ((buildDependencyGraph t).recordOf p).fileCount = (t.accesses.filter fun a => a.pid = p).length := by
  rw [← hcounted] at hp
  obtain ⟨r, hr, rfl⟩ := List.mem_map.mp hp
  obtain ⟨s, hs, rfl⟩ := List.mem_map.mp hr
  rw [hcounted] at hr
  rw [recordOf_of_mem hk hr, Tables.accesses, List.filter_map, List.length_map]
  rfl

private theorem child_mem_pids {p c : Int} (h : Relation.TransGen t.Child p c) : c ∈ t.pids := by
  obtain ⟨d, -, r, hr, -, rfl⟩ := Relation.TransGen.tail'_iff.mp h
  exact List.mem_map_of_mem hr

/-- The total of a set of known processes is the number of their accesses. -/
private theorem sum_fileCount (hk : t.pids.Nodup) (hcounted : t.populateCounts = t) {members : Finset Int}
    (hmem : ∀ x ∈ members, x ∈ t.pids) : ∑ x ∈ members, ((buildDependencyGraph t).recordOf x).fileCount =
      (t.accesses.filter fun a => a.pid ∈ members).length := by
  rw [Finset.sum_congr rfl fun x hx => fileCount_recordOf hk hcounted (hmem x hx), ← Nat.cast_sum,
    Tally.sum_length_filter members t.accesses (·.pid)]

/-- Subtrees of the roots part the processes among them. -/
private theorem sum_roots (hk : t.pids.Nodup) (h : t.Acyclic) {members : Int → Finset Int}
    (hmem : ∀ p ∈ rootPids t.allProcesses, ∀ x, x ∈ members p ↔ x = p ∨ (buildDependencyGraph t).Below p x)
    (f : Int → Int) :
    ((rootPids t.allProcesses).map fun p => ∑ x ∈ members p, f x).sum = ∑ x ∈ t.pids.toFinset, f x := by
  have hnd : (rootPids t.allProcesses).Nodup := (allProcesses_nodup hk).sublist (List.filter_sublist.map _)
  have hin : ∀ p ∈ rootPids t.allProcesses, ∀ x, x ∈ members p ↔ Relation.ReflTransGen t.Child p x := by
    intro p hp x
    rw [hmem p hp, DependencyGraph.below_iff_child, Relation.reflTransGen_iff_eq_or_transGen]
  rw [← List.sum_toFinset _ hnd, ← Finset.sum_biUnion]
  · congr 1
    ext x
    simp only [Finset.mem_biUnion, List.mem_toFinset]
    constructor
    · rintro ⟨p, hp, hx⟩
      rcases Relation.reflTransGen_iff_eq_or_transGen.mp ((hin p hp x).mp hx) with rfl | hbelow
      · obtain ⟨r, hr, rfl, -⟩ := (mem_rootPids x).mp hp
        exact List.mem_map_of_mem hr
      · exact child_mem_pids hbelow
    · intro hx
      obtain ⟨r, hr, hout, hreach⟩ := DependencyGraph.exists_root h hx
      have hp : r.pid ∈ rootPids t.allProcesses := (mem_rootPids r.pid).mpr ⟨r, hr, rfl, hout⟩
      exact ⟨r.pid, hp, (hin r.pid hp x).mpr hreach⟩
  · intro p hp q hq hne
    rw [List.coe_toFinset] at hp hq
    refine Finset.disjoint_left.mpr fun x hx hx' => hne ?_
    have hone : Relator.RightUnique (Function.swap t.Child) := fun a b c => Tables.child_unique t hk
    obtain ⟨r, hr, rfl, hout⟩ := (mem_rootPids p).mp hp
    obtain ⟨s, hs, rfl, hout'⟩ := (mem_rootPids q).mp hq
    have hpx := Relation.reflTransGen_swap.mpr ((hin r.pid hp x).mp hx)
    have hqx := Relation.reflTransGen_swap.mpr ((hin s.pid hq x).mp hx')
    rcases hpx.total_of_right_unique hone hqx with hup | hup
    · exact (DependencyGraph.root_top hk (List.mem_map_of_mem hs) hr hout (Relation.reflTransGen_swap.mp hup)).symm
    · exact DependencyGraph.root_top hk (List.mem_map_of_mem hr) hs hout' (Relation.reflTransGen_swap.mp hup)

/-- A total that is summed over the subtrees, summed over the roots. -/
private theorem sum_rootTotals (hk : t.pids.Nodup) (h : t.Acyclic) {stats : StatsCache}
    (hstats : ∀ p ∈ t.pids, ∃ ds, stats[p]? = some ds ∧ (buildDependencyGraph t).Aggregates p ds)
    {total : DescendantStats → Int} (f : Int → Int) (htotal : ∀ p ds, (buildDependencyGraph t).Aggregates p ds →
      ∃ members : Finset Int, (∀ x, x ∈ members ↔ x = p ∨ (buildDependencyGraph t).Below p x) ∧
        total ds = ∑ x ∈ members, f x) :
    ((rootPids t.allProcesses).map fun p => total (stats[p]?.getD {})).sum = ∑ x ∈ t.pids.toFinset, f x := by
  have hroot : ∀ p, ∃ members : Finset Int, p ∈ rootPids t.allProcesses →
      (∀ x, x ∈ members ↔ x = p ∨ (buildDependencyGraph t).Below p x) ∧
        total (stats[p]?.getD {}) = ∑ x ∈ members, f x := by
    intro p
    by_cases hp : p ∈ rootPids t.allProcesses
    · obtain ⟨r, hr, rfl, -⟩ := (mem_rootPids p).mp hp
      obtain ⟨ds, hds, hagg⟩ := hstats r.pid (List.mem_map_of_mem hr)
      obtain ⟨members, hmem, hsum⟩ := htotal r.pid ds hagg
      exact ⟨members, fun _ => ⟨hmem, by rw [hds, Option.getD_some, hsum]⟩⟩
    · exact ⟨∅, fun hin => absurd hin hp⟩
  choose members hmembers using hroot
  rw [List.map_congr_left fun p hp => (hmembers p hp).2]
  exact sum_roots hk h (fun p hp => (hmembers p hp).1) f

private theorem foldl_cpu (entries : List (Int × ProcessRecord)) (total : Int) :
    entries.foldl (fun total e => total + (e.2.userTimeUs + e.2.sysTimeUs)) total =
      total + (entries.map fun e => e.2.userTimeUs + e.2.sysTimeUs).sum := by
  induction entries generalizing total with
  | nil => exact (Int.add_zero total).symm
  | cons e entries ih => rw [List.foldl_cons, ih, List.map_cons, List.sum_cons, Int.add_assoc]

/-- The entries of the process map are the records of the known processes. -/
private theorem sum_procMap (hk : t.pids.Nodup) (f : ProcessRecord → Int) :
    ((buildDependencyGraph t).procMap.toList.map fun e => f e.2).sum =
      ∑ x ∈ t.pids.toFinset, f ((buildDependencyGraph t).recordOf x) := by
  have hentries : (buildDependencyGraph t).procMap.toList.map (fun e => f e.2) =
      (buildDependencyGraph t).procMap.keys.map fun x => f ((buildDependencyGraph t).recordOf x) := by
    rw [← Std.TreeMap.map_fst_toList_eq_keys, List.map_map]
    refine List.map_congr_left fun e he => ?_
    rw [Function.comp_apply, recordOf, Std.TreeMap.mem_toList_iff_getElem?_eq_some.mp he, Option.getD_some]
  rw [hentries, ← List.sum_toFinset _ Std.TreeMap.nodup_keys]
  congr 1
  ext x
  rw [List.mem_toFinset, List.mem_toFinset, Std.TreeMap.mem_keys, DependencyGraph.mem_procMap_iff hk]

end Totals

/-- On counted rows and acyclic parent links the graph loads, and its totals agree with the lists of files. -/
theorem subtree_totals (t : Tables) (hk : t.pids.Nodup) (h : t.Acyclic) (hs : t.Sound)
    (hnul : ∀ f ∈ t.files, '\x00' ∉ f.path) (hcounted : t.populateCounts = t) :
    ∃ n, ∀ fuel, n ≤ fuel → ∃ loaded, getDepGraph fuel t = some loaded ∧ TotalsAgree t fuel loaded := by
  obtain ⟨n, hn⟩ := DependencyGraph.computeDescAll_exact _ (DependencyGraph.linked_built hk h)
    (buildDependencyGraph t).procMap.keys
  obtain ⟨m, hm⟩ := getDescendantPids_uniform h t.pids
  refine ⟨max n m, fun fuel hfuel => ?_⟩
  obtain ⟨cache, hcache, hexact⟩ := hn fuel ((le_max_left n m).trans hfuel)
  have hfound := hm fuel ((le_max_right n m).trans hfuel)
  have hstats : ∀ p ∈ t.pids, ∃ ds, cache[p]? = some ds ∧ (buildDependencyGraph t).Aggregates p ds := fun p hp =>
    hexact p (Std.TreeMap.mem_keys.mpr ((DependencyGraph.mem_procMap_iff hk p).mpr hp))
  refine ⟨_, by rw [getDepGraph, hcache, Option.map_some], ?_, ?_, ?_, ?_⟩
  · intro r hr
    obtain ⟨ds, hds, members, hmem, hcount, -⟩ := hstats r.pid (List.mem_map_of_mem hr)
    obtain ⟨found, hwalk⟩ := hfound r.pid (List.mem_map_of_mem hr)
    refine ⟨ds, hds, fun query => ?_⟩
    by_cases htree : getQueryParam query "tree".toList = ['1']
    · have hasked : ∀ x, decide (x ∈ members) = true ↔ asked t r.pid query x := fun x => by
        rw [decide_eq_true_eq, hmem, asked, DependencyGraph.below_iff_child, and_iff_right htree]
      refine ⟨_, handleProcessFiles_eq hs hwalk query hasked, ?_⟩
      rw [if_pos htree, List.length_map, hcount, sum_fileCount hk hcounted]
      intro x hx
      rcases (hmem x).mp hx with rfl | hbelow
      · exact List.mem_map_of_mem hr
      · exact child_mem_pids ((DependencyGraph.below_iff_child r.pid x).mp hbelow)
    · have hasked : ∀ x, decide (x = r.pid) = true ↔ asked t r.pid query x := fun x => by
        rw [decide_eq_true_eq, asked, or_iff_left fun hdown => htree hdown.1]
      refine ⟨_, handleProcessFiles_eq hs hwalk query hasked, ?_⟩
      rw [if_neg htree, List.length_map, ← fileCount_recordOf hk hcounted (List.mem_map_of_mem hr),
        recordOf_of_mem hk hr]
  · intro r hr query hquery
    obtain ⟨found, hwalk⟩ := hfound r.pid (List.mem_map_of_mem hr)
    obtain ⟨pids, hpids, hdirs⟩ := handleProcessFiledirs_eq hwalk hquery
    have hasked : ∀ x, decide (x ∈ pids) = true ↔ asked t r.pid query x := fun x => by rw [decide_eq_true_eq, hpids]
    exact ⟨_, _, handleProcessFiles_eq hs hwalk query hasked, hdirs, totalCount_filedirs hs.fileIds hnul pids⟩
  · refine (sum_rootTotals hk h hstats (fun x => ((buildDependencyGraph t).recordOf x).fileCount)
      fun p ds hagg => ?_).trans ?_
    · obtain ⟨members, hmem, hsum, -⟩ := hagg
      exact ⟨members, hmem, hsum⟩
    · rw [sum_fileCount hk hcounted fun x hx => List.mem_toFinset.mp hx]
      simp only [List.mem_toFinset]
  · refine (sum_rootTotals hk h hstats (fun x => ((buildDependencyGraph t).recordOf x).userTimeUs +
      ((buildDependencyGraph t).recordOf x).sysTimeUs) fun p ds hagg => ?_).trans ?_
    · obtain ⟨members, hmem, -, -, hsum, -⟩ := hagg
      exact ⟨members, hmem, hsum⟩
    · rw [← sum_procMap hk fun r => r.userTimeUs + r.sysTimeUs, foldl_cpu, Int.zero_add]

/-- A driver with a compiler below it. -/
private def countedDriver : Tables :=
  { processes := [{ pid := 1, ppid := 0, fileCount := 1 }, { pid := 2, ppid := 1, fileCount := 2, userTimeUs := 5 }]
    files := [⟨1, "/usr/x".toList⟩, ⟨2, "/y".toList⟩]
    fileAccesses := [⟨1, 1, 1, 0, 3, 0⟩, ⟨2, 2, 1, 0, 3, 0⟩, ⟨3, 2, 2, 1, 4, 0⟩] }

theorem driver_totals : ∃ n, ∀ fuel, n ≤ fuel → ∃ loaded, getDepGraph fuel countedDriver = some loaded ∧
    TotalsAgree countedDriver fuel loaded :=
  subtree_totals countedDriver (by decide) (Tables.acyclic_of_rank Int.toNat (by decide)) (by decide)
    (by decide) (by decide)

end Bdtrace
