import Bdtrace.General.Tallies
import Bdtrace.Store.PrefixQueries
import Bdtrace.View.TreeWalks
import Bdtrace.Web.QueryParams

/-! The directory listing of the files that a process, or a process with its descendants, uses. -/
namespace Bdtrace
open Std (TreeMap TreeSet)

structure FileDirEntry where
  count : Nat := 0
  reads : Nat := 0
  writes : Nat := 0
  isDir : Bool := false
  deriving DecidableEq, Repr

def FileDirEntry.add (e : FileDirEntry) (isDir : Bool) (mode : Int) : FileDirEntry where
  count := e.count + 1
  reads := if isInputMode mode then e.reads + 1 else e.reads
  writes := if isOutputMode mode then e.writes + 1 else e.writes
  isDir := if isDir then true else e.isDir

structure FileDirScanCtx where
  pids : TreeSet Int
  entries : TreeMap Str FileDirEntry := ∅
  prefixLen : Nat
  totalCount : Nat := 0

/-- The text up to the first slash. -/
def component (rest : Str) : Str := rest.takeWhile (· ≠ '/')

def filedirsScanCb (pid : Int) (filename : Str) (mode : Int) (ctx : FileDirScanCtx) : FileDirScanCtx :=
  if pid ∉ ctx.pids then ctx
  else
    let rest := filename.drop ctx.prefixLen
    if rest = [] then ctx
    else
      let name := component rest
      let isDir := '/' ∈ rest
      if name = [] then ctx
      else { ctx with
        entries := ctx.entries.alter name fun e => some ((e.getD {}).add isDir mode)
        totalCount := ctx.totalCount + 1 }

/-- An entry as it is written out. -/
structure FileDirJson where
  name : Str
  type : Str
  count : Nat
  reads : Nat
  writes : Nat
  deriving DecidableEq, Repr

structure FileDirAnswer where
  totalCount : Nat
  entries : List FileDirJson
  deriving DecidableEq, Repr

def FileDirScanCtx.answer (ctx : FileDirScanCtx) : FileDirAnswer where
  totalCount := ctx.totalCount
  entries := ctx.entries.toList.map fun e =>
    ⟨e.1, if e.2.isDir then "dir".toList else "file".toList, e.2.count, e.2.reads, e.2.writes⟩

namespace Tables
variable (t : Tables)

/-- The scan of `handle_process_filedirs` and its answer. -/
def filedirs (pids : TreeSet Int) (pfx : Str) : FileDirAnswer :=
  (t.scanFileAccessesByPrefix pfx filedirsScanCb { pids, prefixLen := pfx.length }).1.answer

/-- `GET /api/processes/<pid>/filedirs`; `none` when the walk down the tree needs more fuel. -/
def handleProcessFiledirs (fuel : Nat) (pid : Int) (query : Str) : Option FileDirAnswer := do
  let pfx := getQueryParam query "prefix".toList
  let pfx := if pfx = [] then ['/'] else pfx
  let tree := getQueryParam query "tree".toList = ['1']
  let pids := (∅ : TreeSet Int).insert pid
  let pids ← if tree then (t.getDescendantPids fuel pid).map fun found => found.foldl (fun s p => s.insert p) pids
    else some pids
  return t.filedirs pids pfx

end Tables

/-! ### What a listing owes its directory -/

/-- The path of an access strictly below a directory, from that directory on. -/
def restBelow (pids : TreeSet Int) (dir : Str) (a : Tables.StoredAccess) : Option Str :=
  match a.path with
  | none => none
  | some path => if a.pid ∈ pids ∧ dir <+: path ∧ path ≠ dir then some (path.drop dir.length) else none

/-- A listing of the paths below a directory: the components next to it, each with the number of its paths, and
told to be a directory if one of them goes on. -/
structure Lists (answer : FileDirAnswer) (below : List Str) : Prop where
  total : answer.totalCount = below.length
  nodup : (answer.entries.map (·.name)).Nodup
  names : ∀ name, name ∈ answer.entries.map (·.name) ↔ name ∈ below.map component
  count : ∀ e ∈ answer.entries, e.count = (below.filter fun rest => component rest = e.name).length
  sum : (answer.entries.map (·.count)).sum = answer.totalCount
  type : ∀ e ∈ answer.entries, e.type = "dir".toList ↔ ∃ rest ∈ below, component rest = e.name ∧ '/' ∈ rest

/-! ### The scan as a tally -/

/-- The name that a cut path is counted under. -/
def countedName (rest : Str) : Option Str := if component rest = [] then none else some (component rest)

/-- What the callback cuts off the paths of the selected processes, with the modes. -/
def cutPaths (pids : TreeSet Int) (n : Nat) (rows : List Tables.StoredAccess) : List (Str × Int) :=
  (rows.filter fun a => a.pid ∈ pids).map fun a => ((a.path.getD []).drop n, a.mode)

abbrev cutKey (c : Str × Int) : Option Str := countedName c.1

abbrev addCut (e : FileDirEntry) (c : Str × Int) : FileDirEntry := e.add ('/' ∈ c.1) c.2

private theorem countedName_eq_some {rest name : Str} :
    countedName rest = some name ↔ component rest = name ∧ name ≠ [] := by
  unfold countedName
  split
  · rename_i h
    exact iff_of_false nofun fun hn => hn.2 (hn.1 ▸ h)
  · rename_i h
    rw [Option.some.injEq]
    exact ⟨fun hn => ⟨hn, hn ▸ h⟩, fun hn => hn.1⟩

/-- One call of the callback. -/
private theorem filedirsScanCb_eq (pid : Int) (filename : Str) (mode : Int) (ctx : FileDirScanCtx) :
    filedirsScanCb pid filename mode ctx =
      if pid ∈ ctx.pids then
        { ctx with
          entries := Tally.step cutKey {} addCut ctx.entries (filename.drop ctx.prefixLen, mode)
          totalCount := ctx.totalCount + (countedName (filename.drop ctx.prefixLen)).toList.length }
      else ctx := by
  unfold filedirsScanCb
  by_cases hpid : pid ∈ ctx.pids
  · rw [if_neg (not_not.mpr hpid), if_pos hpid]
    simp only [Tally.step, cutKey, countedName]
    by_cases hrest : filename.drop ctx.prefixLen = []
    · simp [hrest, component]
    · by_cases hname : component (filename.drop ctx.prefixLen) = [] <;> simp [hrest, hname]
  · rw [if_pos hpid, if_neg hpid]

private theorem foldl_filedirsScanCb (rows : List Tables.StoredAccess) (ctx : FileDirScanCtx) :
    rows.foldl (fun s a => filedirsScanCb a.pid (a.path.getD []) a.mode s) ctx =
      { ctx with
        entries := (cutPaths ctx.pids ctx.prefixLen rows).foldl (Tally.step cutKey {} addCut) ctx.entries
        totalCount := ctx.totalCount + ((cutPaths ctx.pids ctx.prefixLen rows).filterMap cutKey).length } := by
  induction rows generalizing ctx with
  | nil => rfl
  | cons a rows ih =>
    rw [List.foldl_cons, filedirsScanCb_eq]
    by_cases hpid : a.pid ∈ ctx.pids
    · have hcuts : cutPaths ctx.pids ctx.prefixLen (a :: rows) =
          ((a.path.getD []).drop ctx.prefixLen, a.mode) :: cutPaths ctx.pids ctx.prefixLen rows := by
            simp [cutPaths, hpid]
      rw [if_pos hpid, ih, hcuts, List.foldl_cons, List.filterMap_cons]
      congr 1
      cases hname : countedName ((a.path.getD []).drop ctx.prefixLen) with
      | none => simp [cutKey, hname]
      | some name =>
        simp only [cutKey, hname, Option.toList_some, List.length_cons, List.length_nil]
        omega
    · have hcuts : cutPaths ctx.pids ctx.prefixLen (a :: rows) = cutPaths ctx.pids ctx.prefixLen rows := by
        simp [cutPaths, hpid]
      rw [if_neg hpid, ih, hcuts]

private theorem foldl_addCut (rows : List (Str × Int)) (e : FileDirEntry) :
    (rows.foldl addCut e).count = e.count + rows.length ∧
    ((rows.foldl addCut e).isDir = true ↔ e.isDir = true ∨ ∃ c ∈ rows, '/' ∈ c.1) := by
  induction rows generalizing e with
  | nil => simp
  | cons c rows ih =>
    obtain ⟨hcount, hdir⟩ := ih (addCut e c)
    rw [List.foldl_cons, hcount, hdir]
    constructor
    · simp only [addCut, FileDirEntry.add, List.length_cons]
      omega
    · by_cases hc : '/' ∈ c.1 <;> simp [addCut, FileDirEntry.add, hc]

/-- The cut paths that the callback counts. -/
def named (cs : List (Str × Int)) : List Str := (cs.map (·.1)).filter fun rest => component rest ≠ []

private theorem filterMap_cutKey (cs : List (Str × Int)) : cs.filterMap cutKey = (named cs).map component := by
  induction cs with
  | nil => rfl
  | cons c cs ih =>
    rw [List.filterMap_cons, ih, named, named, List.map_cons, List.filter_cons]
    by_cases hc : component c.1 = [] <;> simp [cutKey, countedName, hc]

private theorem map_fst_rowsOf (cs : List (Str × Int)) (name : Str) :
    (Tally.rowsOf cutKey cs name).map (·.1) = (named cs).filter fun rest => component rest = name := by
  rw [Tally.rowsOf, named, List.filter_filter, List.filter_map]
  congr 1
  apply List.filter_congr
  intro c _
  simp only [Function.comp_apply, cutKey, countedName_eq_some, ne_eq, Bool.decide_and, decide_not]
  by_cases hname : component c.1 = name
  · simp [hname]
  · simp [hname]

private theorem type_eq_dir (b : Bool) : (if b then "dir".toList else "file".toList) = "dir".toList ↔ b = true := by
  cases b <;> decide

/-- The tallied cuts are listed as they should be. -/
private theorem lists_tally (pids : TreeSet Int) (n : Nat) (cs : List (Str × Int)) :
    Lists (FileDirScanCtx.answer ⟨pids, Tally.tally cutKey {} addCut cs, n, (cs.filterMap cutKey).length⟩)
      (named cs) := by
  have hkeys : ∀ entries : TreeMap Str FileDirEntry, (entries.toList.map fun e => (⟨e.1,
      if e.2.isDir then "dir".toList else "file".toList, e.2.count, e.2.reads, e.2.writes⟩ :
        FileDirJson)).map (·.name) =
      entries.toList.map Prod.fst := fun entries => List.map_map
  have hcount : ∀ e ∈ (Tally.tally cutKey {} addCut cs).toList,
      e.2.count = (Tally.rowsOf cutKey cs e.1).length := by
    intro e he
    rw [(Tally.mem_toList_tally.mp he).2, (foldl_addCut _ _).1]
    exact Nat.zero_add _
  constructor
  · show (cs.filterMap cutKey).length = _
    rw [filterMap_cutKey, List.length_map]
  · rw [FileDirScanCtx.answer, hkeys]
    exact Tally.nodup_keys_tally cs
  · intro name
    rw [FileDirScanCtx.answer, hkeys, Tally.mem_keys_tally, ← filterMap_cutKey, List.mem_filterMap]
  · intro j hj
    obtain ⟨e, he, rfl⟩ := List.mem_map.mp hj
    rw [hcount e he, ← map_fst_rowsOf, List.length_map]
  · have hnames : ∀ name, name ∈ (Tally.tally cutKey {} addCut cs).toList.map Prod.fst ↔
        ∃ c ∈ cs, cutKey c = some name := fun _ => Tally.mem_keys_tally
    rw [FileDirScanCtx.answer, List.map_map, ← Tally.sum_rowsOf (Tally.nodup_keys_tally cs) hnames, List.map_map]
    congr 1
    apply List.map_congr_left
    exact hcount
  · intro j hj
    obtain ⟨e, he, rfl⟩ := List.mem_map.mp hj
    have hdir : e.2.isDir = true ↔ ∃ c ∈ Tally.rowsOf cutKey cs e.1, '/' ∈ c.1 := by
      rw [(Tally.mem_toList_tally.mp he).2, (foldl_addCut _ _).2]
      exact or_iff_right Bool.false_ne_true
    have hmem : ∀ rest, rest ∈ (Tally.rowsOf cutKey cs e.1).map (·.1) ↔ rest ∈ named cs ∧ component rest = e.1 := by
      intro rest
      rw [map_fst_rowsOf, List.mem_filter, decide_eq_true_eq]
    apply (type_eq_dir _).trans
    apply hdir.trans
    constructor
    · rintro ⟨c, hc, hslash⟩
      obtain ⟨hnamed, hname⟩ := (hmem c.1).mp (List.mem_map_of_mem hc)
      exact ⟨c.1, hnamed, hname, hslash⟩
    · rintro ⟨rest, hrest, hname, hslash⟩
      obtain ⟨c, hc, rfl⟩ := List.mem_map.mp ((hmem rest).mpr ⟨hrest, hname⟩)
      exact ⟨c, hc, hslash⟩

/-! ### Where the callback cuts -/

section Cut
variable {pids : TreeSet Int} {pfx : Str}

private theorem component_eq_nil {rest : Str} : component rest = [] ↔ rest = [] ∨ rest.head? = some '/' := by
  cases rest with
  | nil => simp [component]
  | cons c rest => by_cases hc : c = '/' <;> simp [component, hc]

/-- Cut behind a trailing slash, the named paths are those below the directory whose next component is not empty. -/
private theorem named_of_slash (rows : List Tables.StoredAccess) (hslash : completePrefix pfx = pfx) :
    named (cutPaths pids pfx.length (rows.filter fun a => a.path.any (completePrefix pfx).isPrefixOf)) =
      (rows.filterMap (restBelow pids (completePrefix pfx))).filter fun rest => component rest ≠ [] := by
  rw [hslash]
  induction rows with
  | nil => rfl
  | cons a rows ih =>
    cases hpath : a.path with
    | none => simpa [restBelow, hpath] using ih
    | some path =>
      rw [List.filter_cons, List.filterMap_cons, hpath, Option.any_some]
      by_cases hpre : pfx <+: path
      · rw [if_pos (List.isPrefixOf_iff_prefix.mpr hpre), cutPaths, List.filter_cons]
        by_cases hpid : a.pid ∈ pids
        · rw [if_pos (decide_eq_true hpid), List.map_cons, ← cutPaths, hpath, Option.getD_some, named, List.map_cons,
            List.filter_cons, ← named, ih]
          by_cases hself : path = pfx
          · simp [restBelow, hpath, hself, component]
          · simp [restBelow, hpath, hself, hpid, hpre, List.filter_cons]
        · simpa [restBelow, hpath, hpid, cutPaths] using ih
      · rw [if_neg (mt List.isPrefixOf_iff_prefix.mp hpre)]
        simpa [restBelow, hpath, hpre] using ih

/-- Cut in front of the slash, no path has a name. -/
private theorem named_of_no_slash (rows : List Tables.StoredAccess) (hslash : completePrefix pfx = pfx ++ ['/']) :
    named (cutPaths pids pfx.length (rows.filter fun a => a.path.any (completePrefix pfx).isPrefixOf)) = [] := by
  apply List.filter_eq_nil_iff.mpr
  intro rest hrest
  obtain ⟨c, hc, rfl⟩ := List.mem_map.mp hrest
  obtain ⟨a, ha, rfl⟩ := List.mem_map.mp hc
  have hp := (List.mem_filter.mp (List.mem_filter.mp ha).1).2
  cases hpath : a.path with
  | none => simp [hpath] at hp
  | some path =>
    rw [hpath, Option.any_some, List.isPrefixOf_iff_prefix, hslash] at hp
    obtain ⟨tail, rfl⟩ := hp
    simp [component]

end Cut

theorem completePrefix_of_slash {pfx : Str} (h : pfx.getLast? = some '/') : completePrefix pfx = pfx :=
  if_neg fun hn => hn.2 h

private theorem completePrefix_of_no_slash {pfx : Str} (hpfx : pfx ≠ []) (h : pfx.getLast? ≠ some '/') :
    completePrefix pfx = pfx ++ ['/'] := if_pos ⟨hpfx, h⟩

private theorem restBelow_ne_nil {pids : TreeSet Int} {dir rest : Str} {a : Tables.StoredAccess}
    (h : restBelow pids dir a = some rest) : rest ≠ [] := by
  unfold restBelow at h
  cases hpath : a.path with
  | none => simp [hpath] at h
  | some path =>
    simp only [hpath, Option.ite_none_right_eq_some, Option.some.injEq] at h
    obtain ⟨⟨-, ⟨tail, rfl⟩, hne⟩, rfl⟩ := h
    rw [List.drop_left]
    rintro rfl
    exact hne (List.append_nil dir)

/-- Whatever the prefix, the answer lists what the callback counts. -/
theorem lists_filedirs {t : Tables} (hids : (t.files.map (·.id)).Nodup) (hnul : ∀ f ∈ t.files, '\x00' ∉ f.path)
    (pids : TreeSet Int) {pfx : Str} (hpfx : pfx ≠ []) : Lists (t.filedirs pids pfx)
      (named (cutPaths pids pfx.length (t.accesses.filter fun a => a.path.any (completePrefix pfx).isPrefixOf))) := by
  have h := lists_tally pids pfx.length
    (cutPaths pids pfx.length (t.accesses.filter fun a => a.path.any (completePrefix pfx).isPrefixOf))
  rw [Tables.filedirs, Tables.scanFileAccessesByPrefix_eq hids hnul hpfx, foldl_filedirsScanCb, Nat.zero_add]
  exact h

/-- The answer lists the directory exactly if the prefix is given with its slash and no path goes on with a second
one, or there is nothing to list. -/
theorem filedirs_lists_iff (t : Tables) (hids : (t.files.map (·.id)).Nodup) (hnul : ∀ f ∈ t.files, '\x00' ∉ f.path)
    (pids : TreeSet Int) (pfx : Str) (hpfx : pfx ≠ []) :
    Lists (t.filedirs pids pfx) (t.accesses.filterMap (restBelow pids (completePrefix pfx))) ↔
      (pfx.getLast? = some '/' ∧
        ∀ rest ∈ t.accesses.filterMap (restBelow pids (completePrefix pfx)), rest.head? ≠ some '/') ∨
      t.accesses.filterMap (restBelow pids (completePrefix pfx)) = [] := by
  have hlists := lists_filedirs hids hnul pids hpfx
  by_cases hslash : pfx.getLast? = some '/'
  · rw [named_of_slash t.accesses (completePrefix_of_slash hslash)] at hlists
    constructor
    · intro h
      refine .inl ⟨hslash, fun rest hrest hhead => ?_⟩
      have hall := List.length_filter_eq_length_iff.mp (hlists.total.symm.trans h.total) rest hrest
      rw [decide_eq_true_eq, Ne, component_eq_nil, not_or] at hall
      exact hall.2 hhead
    · intro h
      have hall : ∀ rest ∈ t.accesses.filterMap (restBelow pids (completePrefix pfx)), component rest ≠ [] := by
        intro rest hrest hnil
        obtain ⟨a, -, ha⟩ := List.mem_filterMap.mp hrest
        rcases h with ⟨-, hhead⟩ | hnone
        · exact (component_eq_nil.mp hnil).elim (restBelow_ne_nil ha) (hhead rest hrest)
        · rw [hnone] at hrest
          exact List.not_mem_nil hrest
      rwa [List.filter_eq_self.mpr fun rest hrest => decide_eq_true (hall rest hrest)] at hlists
  · rw [named_of_no_slash t.accesses (completePrefix_of_no_slash hpfx hslash)] at hlists
    constructor
    · intro h
      exact .inr (List.length_eq_zero_iff.mp (h.total.symm.trans hlists.total))
    · rintro (⟨h, -⟩ | h)
      · exact absurd h hslash
      · rwa [h]

/-- One process that read one file. -/
def oneRead : Tables where
  files := [⟨1, "/usr/lib/x".toList⟩]
  fileAccesses := [⟨1, 5, 1, 0, 3, 10⟩]

theorem filedirs_lists_iff_usr : Lists (oneRead.filedirs {5} "/usr/".toList) ["lib/x".toList] := by
  have h := (filedirs_lists_iff oneRead (by decide) (by decide) {5} "/usr/".toList (by decide)).mpr
    (.inl ⟨by decide, by decide⟩)
  rwa [show oneRead.accesses.filterMap (restBelow {5} (completePrefix "/usr/".toList)) =
    ["lib/x".toList] by decide] at h

/-- Asked for `/usr`, the server tells of no file. -/
theorem filedirs_without_slash : oneRead.filedirs {5} "/usr".toList = ⟨0, []⟩ ∧
    oneRead.accesses.filterMap (restBelow {5} (completePrefix "/usr".toList)) = ["lib/x".toList] ∧
    ¬ Lists (oneRead.filedirs {5} "/usr".toList) ["lib/x".toList] := by
  have h : oneRead.filedirs {5} "/usr".toList = ⟨0, []⟩ := by decide
  refine ⟨h, by decide, fun hl => ?_⟩
  rw [h] at hl
  exact absurd hl.total (by decide)

end Bdtrace
