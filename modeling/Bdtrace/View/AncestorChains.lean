import Bdtrace.General.Climbs
import Bdtrace.General.FirstOccurrences
import Bdtrace.View.Diagnostics
import Bdtrace.Web.TimelineDepths

/-! The chains of ancestors that `bdview trace` prints for the processes that access a file. -/
namespace Bdtrace
open Std (TreeMap TreeSet)

section Source
variable (fuel : Nat) (t : Tables)

/-- The loop of `get_ancestor_chain`. -/
def ancestorLoop : Nat → TreeSet Int → Int → Option (List ProcessRecord)
  | 0, _, _ => none
  | fuel + 1, visited, cur =>
    if cur ∈ visited then some []
    else
      match t.getProcess cur with
      | none => some []
      | some rec => (ancestorLoop fuel (visited.insert cur) rec.ppid).map (rec :: ·)

def getAncestorChain (pid : Int) : Option (List ProcessRecord) := ancestorLoop t fuel ∅ pid

/-- A process below a file, with its mode and its chain. -/
structure TraceLine where
  mode : Int
  pid : Int
  chain : List ProcessRecord
  deriving DecidableEq, Repr

/-- The loop of `cmd_trace` over the accesses of a file, which shows each process once. -/
def traceLines : TreeSet Int → List Tables.StoredAccess → Option (List TraceLine)
  | _, [] => some []
  | seenPids, a :: accesses =>
    if a.pid ∈ seenPids then traceLines seenPids accesses
    else do
      let chain ← getAncestorChain fuel t a.pid
      let lines ← traceLines (seenPids.insert a.pid) accesses
      some (⟨a.mode, a.pid, chain⟩ :: lines)

/-- `cmd_trace` with a path, for the rows that `get_file_accesses_by_name` returns. -/
def cmdTracePath (accesses : List Tables.StoredAccess) : Option (List TraceLine) := traceLines fuel t ∅ accesses

/-- `by_file` and `file_order`: the accesses of each file, and the files in the order of their first accesses. -/
abbrev FileGroups := TreeMap Str (List Tables.StoredAccess) × List Str

def groupAccess (s : FileGroups) (a : Tables.StoredAccess) : FileGroups :=
  let fn := a.path.getD []
  (s.1.alter fn fun accs => some (accs.getD [] ++ [a]), if fn ∈ s.1 then s.2 else s.2 ++ [fn])

def groupByFile (accesses : List Tables.StoredAccess) : FileGroups := accesses.foldl groupAccess (∅, [])

/-- `cmd_trace` without a filter, for the rows that `get_all_file_accesses` returns: the files with their lines, where a
process without a row gets none. -/
def cmdTraceAll (accesses : List Tables.StoredAccess) : Option (List (Str × List TraceLine)) :=
  let (byFile, fileOrder) := groupByFile accesses
  fileOrder.mapM fun filename =>
    (traceLines fuel t ∅ (byFile.getD filename [])).map fun lines => (filename, lines.filter fun l => l.chain ≠ [])

end Source

/-! ### The chains -/

namespace Tables
variable (t : Tables)

/-- The rows of a process and of all that is above it, each once and each below its parent. -/
structure IsAncestorChain (pid : Int) (chain : List ProcessRecord) : Prop where
  stored : ∀ r ∈ chain, r ∈ t.processes
  once : (chain.map (·.pid)).Nodup
  first : pid ∈ t.pids → ∃ r ∈ chain.head?, r.pid = pid
  links : chain.IsChain fun r above => r.ppid = above.pid
  whole : ∀ r ∈ t.processes, r ∈ chain ↔ Relation.ReflTransGen t.Child r.pid pid
  depth : t.Acyclic → pid ∈ t.pids → chain.length = t.depth pid + 1

end Tables

section Proofs
variable {t : Tables}

theorem getProcess_eq_some (hk : t.pids.Nodup) {pid : Int} {r : ProcessRecord} :
    t.getProcess pid = some r ↔ r ∈ t.processes ∧ r.pid = pid := by
  constructor
  · intro h
    exact ⟨List.mem_of_find?_eq_some h, by simpa using List.find?_some h⟩
  · rintro ⟨hr, rfl⟩
    have hfound : (t.processes.find? fun s => s.pid = r.pid).isSome := List.find?_isSome.mpr ⟨r, hr, by simp⟩
    obtain ⟨s, hs⟩ := Option.isSome_iff_exists.mp hfound
    have hmem := List.mem_of_find?_eq_some hs
    have hpid : s.pid = r.pid := by simpa using List.find?_some hs
    rw [Tables.getProcess, hs, List.inj_on_of_nodup_map hk hmem hr hpid]

/-- The parent that a row names. -/
private def ppidOf (t : Tables) (pid : Int) : Option Int := (t.getProcess pid).map (·.ppid)

private theorem ppidOf_eq_some (hk : t.pids.Nodup) {pid ppid : Int} :
    ppidOf t pid = some ppid ↔ t.Child ppid pid := by
  rw [ppidOf, Option.map_eq_some_iff]
  constructor
  · rintro ⟨r, hrow, rfl⟩
    obtain ⟨hr, rfl⟩ := (getProcess_eq_some hk).mp hrow
    exact ⟨r, hr, rfl, rfl⟩
  · rintro ⟨r, hr, rfl, rfl⟩
    exact ⟨r, (getProcess_eq_some hk).mpr ⟨hr, rfl⟩, rfl⟩

private theorem ancestorLoop_eq (fuel : Nat) {visited : TreeSet Int} {seen : List Int} (h : ∀ p, p ∈ visited ↔ p ∈ seen)
    (cur : Int) : ancestorLoop t fuel visited cur =
      (Climbs.climb (ppidOf t) fuel seen cur).map (List.filterMap t.getProcess) := by
  induction fuel generalizing visited seen cur with
  | zero => rfl
  | succ fuel ih =>
    rw [ancestorLoop, Climbs.climb]
    by_cases hin : cur ∈ visited
    · rw [if_pos hin, if_pos ((h cur).mp hin)]
      rfl
    · rw [if_neg hin, if_neg fun hs => hin ((h cur).mpr hs), ppidOf]
      cases hrow : t.getProcess cur with
      | none => rfl
      | some r =>
        have hnext : ∀ p, p ∈ visited.insert cur ↔ p ∈ cur :: seen := by
          intro p
          rw [Std.TreeSet.mem_insert, List.mem_cons, compare_eq_iff_eq, h]
          exact or_congr_left eq_comm
        dsimp only [Option.map_some]
        rw [ih hnext]
        cases Climbs.climb (ppidOf t) fuel (cur :: seen) r.ppid with
        | none => rfl
        | some l => simp only [Option.map_some, List.filterMap_cons, hrow]

private theorem reflTransGen_ppidOf (hk : t.pids.Nodup) {p q : Int} :
    Relation.ReflTransGen (fun x y => ppidOf t x = some y) p q ↔ Relation.ReflTransGen t.Child q p := by
  simp only [ppidOf_eq_some hk]
  exact Relation.reflTransGen_swap

/-- The rows of the processes that a climb has gone through. -/
private theorem filterMap_getProcess (hk : t.pids.Nodup) {l : List Int} (hl : ∀ p ∈ l, (ppidOf t p).isSome) :
    (l.filterMap t.getProcess).map (·.pid) = l := by
  induction l with
  | nil => rfl
  | cons p l ih =>
    obtain ⟨hp, hl⟩ := List.forall_mem_cons.mp hl
    rw [ppidOf, Option.isSome_map] at hp
    obtain ⟨r, hr⟩ := Option.isSome_iff_exists.mp hp
    rw [List.filterMap_cons_some hr, List.map_cons, ih hl, ((getProcess_eq_some hk).mp hr).2]

/-- In a tree a chain is as long as the process is deep. -/
private theorem length_eq_depth (hacyclic : t.Acyclic) {chain : List ProcessRecord} {r : ProcessRecord}
    (hstored : ∀ s ∈ chain, s ∈ t.processes) (honce : (chain.map (·.pid)).Nodup) (hr : r ∈ t.processes)
    (hwhole : ∀ s ∈ t.processes, s ∈ chain ↔ Relation.ReflTransGen t.Child s.pid r.pid) :
    chain.length = t.depth r.pid + 1 := by
  have hset : (chain.map (·.pid)).toFinset = (insert r.pid (t.ancestors r.pid) : Set Int) := by
    ext p
    simp only [List.coe_toFinset, Set.mem_ofPred_eq, List.mem_map, Set.mem_insert_iff, Tables.ancestors]
    constructor
    · rintro ⟨s, hs, rfl⟩
      rcases Relation.reflTransGen_iff_eq_or_transGen.mp ((hwhole s (hstored s hs)).mp hs) with heq | habove
      · exact .inl heq.symm
      · exact .inr ⟨List.mem_map_of_mem (hstored s hs), habove⟩
    · rintro (rfl | ⟨hp, habove⟩)
      · exact ⟨r, (hwhole r hr).mpr .refl, rfl⟩
      · obtain ⟨s, hs, rfl⟩ := List.mem_map.mp hp
        exact ⟨s, (hwhole s hs).mpr habove.to_reflTransGen, rfl⟩
  have hself : r.pid ∉ t.ancestors r.pid := fun h => hacyclic r.pid h.2
  rw [← List.length_map (·.pid), ← List.toFinset_card_of_nodup honce, ← Set.ncard_coe_finset, hset,
    Set.ncard_insert_of_notMem hself (finite_ancestors t r.pid), Tables.depth]

private theorem getAncestorChain_spec (hk : t.pids.Nodup) {fuel : Nat} (hfuel : t.pids.length < fuel) (pid : Int) :
    ∃ chain, getAncestorChain fuel t pid = some chain ∧ t.IsAncestorChain pid chain := by
  have hlinked : ∀ p, (ppidOf t p).isSome → p ∈ t.pids.toFinset := by
    intro p hp
    rw [ppidOf, Option.isSome_map] at hp
    obtain ⟨r, hrow⟩ := Option.isSome_iff_exists.mp hp
    obtain ⟨hr, rfl⟩ := (getProcess_eq_some hk).mp hrow
    exact List.mem_toFinset.mpr (List.mem_map_of_mem hr)
  have hcard : (t.pids.toFinset \ ([] : List Int).toFinset).card < fuel := by
    rw [List.toFinset_nil, Finset.sdiff_empty]
    exact (List.toFinset_card_le _).trans_lt hfuel
  obtain ⟨l, hl, hclimb⟩ := Climbs.climb_total hlinked pid hcard
  have hpids := filterMap_getProcess hk hclimb.linked
  have hrow : ∀ r, r ∈ l.filterMap t.getProcess ↔ r ∈ t.processes ∧ r.pid ∈ l := by
    intro r
    simp only [List.mem_filterMap, getProcess_eq_some hk]
    constructor
    · rintro ⟨p, hp, hr, rfl⟩
      exact ⟨hr, hp⟩
    · rintro ⟨hr, hp⟩
      exact ⟨r.pid, hp, hr, rfl⟩
  have hwhole : ∀ r ∈ t.processes, r ∈ l.filterMap t.getProcess ↔ Relation.ReflTransGen t.Child r.pid pid := by
    intro r hr
    have hsome : (ppidOf t r.pid).isSome := by
      rw [ppidOf, (getProcess_eq_some hk).mpr ⟨hr, rfl⟩]
      rfl
    rw [hrow, hclimb.mem_iff, reflTransGen_ppidOf hk]
    exact ⟨fun h => h.2.2, fun h => ⟨hr, hsome, h⟩⟩
  have honce : ((l.filterMap t.getProcess).map (·.pid)).Nodup := by
    rw [hpids]
    exact hclimb.nodup
  have hstored : ∀ r ∈ l.filterMap t.getProcess, r ∈ t.processes := fun r hr => ((hrow r).mp hr).1
  refine ⟨l.filterMap t.getProcess, ?_, hstored, honce, fun hin => ?_, ?_, hwhole, fun hacyclic hin => ?_⟩
  · rw [getAncestorChain, @ancestorLoop_eq t fuel ∅ [] (by simp), hl, Option.map_some]
  · obtain ⟨r, hr, rfl⟩ := List.mem_map.mp hin
    have hget := (getProcess_eq_some hk).mpr ⟨hr, rfl⟩
    rcases hclimb.start with ⟨-, hvisited | hnone⟩ | hhead
    · cases hvisited
    · rw [ppidOf, hget] at hnone
      cases hnone
    · cases l with
      | nil => cases hhead
      | cons p l =>
        obtain rfl : p = r.pid := by simpa using hhead
        rw [List.filterMap_cons_some hget]
        exact ⟨r, rfl, rfl⟩
  · have hchain := hclimb.steps
    rw [← hpids, List.isChain_map] at hchain
    apply hchain.imp_of_mem_imp
    intro r s hr _ hup
    rw [ppidOf, (getProcess_eq_some hk).mpr ⟨hstored r hr, rfl⟩] at hup
    exact Option.some.inj hup
  · obtain ⟨r, hr, rfl⟩ := List.mem_map.mp hin
    exact length_eq_depth hacyclic hstored honce hr hwhole

private theorem Tables.IsAncestorChain.eq_nil_iff {pid : Int} {chain : List ProcessRecord}
    (h : t.IsAncestorChain pid chain) :
    chain = [] ↔ pid ∉ t.pids := by
  constructor
  · rintro rfl hin
    obtain ⟨r, hr, -⟩ := h.first hin
    cases hr
  · intro hout
    refine List.eq_nil_iff_forall_not_mem.mpr fun r hr => ?_
    rcases ((h.whole r (h.stored r hr)).mp hr).cases_tail with heq | ⟨q, -, s, hs, -, hpid⟩
    · exact hout (heq ▸ List.mem_map_of_mem (h.stored r hr))
    · exact hout (hpid ▸ List.mem_map_of_mem hs)

/-! ### The files -/

namespace Tables

/-- One line for each process that accesses a file and is shown, with the mode of one of its accesses and its chain. -/
structure ListsAccessors (t : Tables) (shown : Int → Prop) (file : Str) (lines : List TraceLine) : Prop where
  once : (lines.map (·.pid)).Nodup
  whole : ∀ pid, pid ∈ lines.map (·.pid) ↔ shown pid ∧ ∃ a ∈ t.getAllFileAccesses, a.path = some file ∧ a.pid = pid
  mode : ∀ l ∈ lines, ∃ a ∈ t.getAllFileAccesses, a.path = some file ∧ a.pid = l.pid ∧ a.mode = l.mode
  chain : ∀ l ∈ lines, t.IsAncestorChain l.pid l.chain

end Tables

open FirstOccurrences (firsts unseen unseen_empty firsts_subset nodup_firsts mem_map_firsts)

private theorem traceLines_spec (hk : t.pids.Nodup) {fuel : Nat} (hfuel : t.pids.length < fuel)
    (accesses : List Tables.StoredAccess)
    {seenPids : TreeSet Int} {seen : Finset Int} (hseen : ∀ p, p ∈ seenPids ↔ p ∈ seen) :
    ∃ lines, traceLines fuel t seenPids accesses = some lines ∧
      lines.map (fun l => (l.mode, l.pid)) = (unseen (·.pid) seen accesses).map (fun a => (a.mode, a.pid)) ∧
      ∀ l ∈ lines, t.IsAncestorChain l.pid l.chain := by
  induction accesses generalizing seenPids seen with
  | nil => exact ⟨[], rfl, rfl, fun l hl => absurd hl List.not_mem_nil⟩
  | cons a accesses ih =>
    rw [traceLines, unseen]
    by_cases hin : a.pid ∈ seenPids
    · rw [if_pos hin, if_pos ((hseen a.pid).mp hin)]
      exact ih hseen
    · rw [if_neg hin, if_neg fun h => hin ((hseen a.pid).mpr h)]
      have hnext : ∀ p, p ∈ seenPids.insert a.pid ↔ p ∈ insert a.pid seen := by
        intro p
        rw [Std.TreeSet.mem_insert, Finset.mem_insert, compare_eq_iff_eq, hseen]
        exact or_congr_left eq_comm
      obtain ⟨chain, hchain, hspec⟩ := getAncestorChain_spec hk hfuel a.pid
      obtain ⟨lines, hlines, hpids, hchains⟩ := ih hnext
      refine ⟨⟨a.mode, a.pid, chain⟩ :: lines, by rw [hchain, hlines]; rfl, ?_, fun l hl => ?_⟩
      · rw [List.map_cons, List.map_cons, hpids]
      · rcases List.mem_cons.mp hl with rfl | hl
        · exact hspec
        · exact hchains l hl

private def fileKey (a : Tables.StoredAccess) : Str := a.path.getD []

/-- The lines of a file, for its rows in any order. -/
private theorem listsAccessors_of_rows (hk : t.pids.Nodup) {fuel : Nat} (hfuel : t.pids.length < fuel) {file : Str}
    {accesses : List Tables.StoredAccess}
    (hrows : ∀ a, a ∈ accesses ↔ a ∈ t.getAllFileAccesses ∧ a.path = some file) :
    ∃ lines, traceLines fuel t ∅ accesses = some lines ∧ t.ListsAccessors (fun _ => True) file lines := by
  obtain ⟨lines, hlines, hpairs, hchains⟩ := @traceLines_spec t hk fuel hfuel accesses ∅ ∅ (by simp)
  rw [unseen_empty] at hpairs
  have hpids : lines.map (·.pid) = (firsts (·.pid) accesses).map (·.pid) := by
    have hsnd := congrArg (List.map Prod.snd) hpairs
    rwa [List.map_map, List.map_map] at hsnd
  refine ⟨lines, hlines, ?_, fun pid => ?_, fun l hl => ?_, hchains⟩
  · rw [hpids]
    exact nodup_firsts _ accesses
  · rw [hpids, mem_map_firsts, List.mem_map]
    constructor
    · rintro ⟨a, ha, rfl⟩
      exact ⟨trivial, a, ((hrows a).mp ha).1, ((hrows a).mp ha).2, rfl⟩
    · rintro ⟨-, a, ha, hpath, rfl⟩
      exact ⟨a, (hrows a).mpr ⟨ha, hpath⟩, rfl⟩
  · have hpair : (l.mode, l.pid) ∈ lines.map (fun l => (l.mode, l.pid)) := List.mem_map_of_mem hl
    rw [hpairs] at hpair
    obtain ⟨a, ha, heq⟩ := List.mem_map.mp hpair
    obtain ⟨hmode, hpid⟩ := Prod.mk.inj heq
    have hin := (hrows a).mp (firsts_subset _ accesses ha)
    exact ⟨a, hin.1, hin.2, hpid, hmode⟩

private theorem foldl_groupAccess (file : Str) (accesses : List Tables.StoredAccess) {s : FileGroups}
    {seen : Finset Str}
    (hseen : ∀ f, f ∈ s.1 ↔ f ∈ seen) :
    (accesses.foldl groupAccess s).1.getD file [] = s.1.getD file [] ++ accesses.filter (fun a => fileKey a = file) ∧
      (accesses.foldl groupAccess s).2 = s.2 ++ (unseen fileKey seen accesses).map fileKey := by
  induction accesses generalizing s seen with
  | nil => exact ⟨(List.append_nil _).symm, (List.append_nil _).symm⟩
  | cons a accesses ih =>
    have hnext : ∀ f, f ∈ (groupAccess s a).1 ↔ f ∈ insert (fileKey a) seen := by
      intro f
      rw [groupAccess, Std.TreeMap.mem_alter, Finset.mem_insert, ← hseen]
      by_cases hf : f = fileKey a
      · subst hf
        simp [fileKey]
      · have hne : compare (a.path.getD []) f ≠ .eq := by simpa [fileKey] using Ne.symm hf
        simp [hf, hne]
    obtain ⟨hrows, horder⟩ := ih hnext
    rw [List.foldl_cons]
    refine ⟨hrows.trans ?_, horder.trans ?_⟩
    · rw [groupAccess, Std.TreeMap.getD_alter]
      by_cases hf : fileKey a = file
      · subst hf
        simp [fileKey, Std.TreeMap.getD_eq_getD_getElem?]
      · have hne : compare (a.path.getD []) file ≠ .eq := by simpa [fileKey] using hf
        rw [if_neg hne, List.filter_cons_of_neg (by simpa using hf)]
    · rw [unseen, groupAccess]
      by_cases hin : fileKey a ∈ seen
      · have hin' : a.path.getD [] ∈ s.1 := (hseen _).mpr hin
        rw [if_pos hin, if_pos hin', Finset.insert_eq_of_mem hin]
      · have hin' : a.path.getD [] ∉ s.1 := fun h => hin ((hseen _).mp h)
        rw [if_neg hin, if_neg hin', List.map_cons, List.append_assoc, List.singleton_append]
        rfl

/-- The two results of the grouping loop. -/
private theorem groupByFile_spec (accesses : List Tables.StoredAccess) (file : Str) :
    (groupByFile accesses).1.getD file [] = accesses.filter (fun a => fileKey a = file) ∧
      (groupByFile accesses).2 = (firsts fileKey accesses).map fileKey := by
  obtain ⟨hrows, horder⟩ := @foldl_groupAccess file accesses (∅, []) ∅ (by simp)
  rw [unseen_empty, List.nil_append] at horder
  refine ⟨?_, horder⟩
  rw [Std.TreeMap.getD_emptyc, List.nil_append] at hrows
  exact hrows

private theorem path_eq_some {a : Tables.StoredAccess} (h : a ∈ t.getAllFileAccesses) (file : Str) :
    a.path = some file ↔ fileKey a = file := by
  obtain ⟨r, -, rfl⟩ := List.mem_map.mp h
  simp [Tables.JoinedAccess.stored, fileKey]

/-- Whatever order the rows come in and whatever circles the links run in: each accessed file is listed once, with every
process that accesses it once and the process's ancestors once; the listing of one file adds the processes
without a row. -/
theorem trace_files (t : Tables) (hk : t.pids.Nodup) {fuel : Nat} (hfuel : t.pids.length < fuel)
    {accesses : List Tables.StoredAccess} (hrows : accesses.Perm t.getAllFileAccesses) :
    (∃ listing, cmdTraceAll fuel t accesses = some listing ∧ (listing.map (·.1)).Nodup ∧
      (∀ file, file ∈ listing.map (·.1) ↔ ∃ a ∈ t.getAllFileAccesses, a.path = some file) ∧
      ∀ e ∈ listing, t.ListsAccessors (· ∈ t.pids) e.1 e.2) ∧
    ∀ (file : Str) (byName : List Tables.StoredAccess),
      byName.Perm (t.getAllFileAccesses.filter fun a => a.path = some file) →
      ∃ lines, cmdTracePath fuel t byName = some lines ∧ t.ListsAccessors (fun _ => True) file lines := by
  constructor
  · have hfile : ∀ file, ∃ lines, (traceLines fuel t ∅ ((groupByFile accesses).1.getD file [])).map (fun lines =>
        (file, lines.filter fun l => l.chain ≠ [])) = some (file, lines) ∧
          t.ListsAccessors (· ∈ t.pids) file lines := by
      intro file
      rw [(groupByFile_spec accesses file).1]
      obtain ⟨lines, hlines, hlists⟩ := @listsAccessors_of_rows t hk fuel hfuel file
        (accesses.filter fun a => fileKey a = file) (by
          intro a
          rw [List.mem_filter, hrows.mem_iff, decide_eq_true_eq]
          exact and_congr_right fun ha => (path_eq_some ha file).symm)
      have hshown : ∀ l ∈ lines, l.chain ≠ [] ↔ l.pid ∈ t.pids := fun l hl =>
        (not_congr (hlists.chain l hl).eq_nil_iff).trans not_not
      refine ⟨lines.filter fun l => l.chain ≠ [], by rw [hlines, Option.map_some], ?_, fun pid => ?_, ?_, ?_⟩
      · exact hlists.once.sublist (List.filter_sublist.map _)
      · have hall := hlists.whole pid
        simp only [true_and] at hall
        rw [← hall]
        simp only [List.mem_map, List.mem_filter, decide_eq_true_eq]
        constructor
        · rintro ⟨l, ⟨hl, hne⟩, rfl⟩
          exact ⟨(hshown l hl).mp hne, l, hl, rfl⟩
        · rintro ⟨hin, l, hl, rfl⟩
          exact ⟨l, ⟨hl, (hshown l hl).mpr hin⟩, rfl⟩
      · exact fun l hl => hlists.mode l (List.mem_of_mem_filter hl)
      · exact fun l hl => hlists.chain l (List.mem_of_mem_filter hl)
    choose lines hlines hlists using hfile
    have hall : cmdTraceAll fuel t accesses = some ((groupByFile accesses).2.map fun file => (file, lines file)) := by
      rw [cmdTraceAll]
      dsimp only
      induction (groupByFile accesses).2 with
      | nil => rfl
      | cons file files ih =>
        rw [List.mapM_cons, hlines, ih]
        rfl
    have hfiles : ((groupByFile accesses).2.map fun file => (file, lines file)).map (·.1) =
        (groupByFile accesses).2 := by
      rw [List.map_map]
      exact List.map_id _
    refine ⟨_, hall, ?_, fun file => ?_, fun e he => ?_⟩
    · rw [hfiles, (groupByFile_spec accesses []).2]
      exact nodup_firsts _ accesses
    · rw [hfiles, (groupByFile_spec accesses []).2, mem_map_firsts, List.mem_map]
      simp only [hrows.mem_iff]
      exact exists_congr fun a => and_congr_right fun ha => (path_eq_some ha file).symm
    · obtain ⟨file, -, rfl⟩ := List.mem_map.mp he
      exact hlists file
  · intro file byName hname
    apply listsAccessors_of_rows hk hfuel
    intro a
    rw [hname.mem_iff, List.mem_filter, decide_eq_true_eq]

end Proofs

/-- A reader below two processes whose parent links form a circle, and a writer that has no row. -/
private def belowCircle : Tables where
  processes := [{ pid := 5, ppid := 6 }, { pid := 6, ppid := 5 }, { pid := 7, ppid := 6 }]
  files := [⟨1, ['/', 'a']⟩]
  fileAccesses := [⟨1, 7, 1, 0, 3, 10⟩, ⟨2, 9, 1, 1, 3, 20⟩, ⟨3, 7, 1, 1, 3, 30⟩]

theorem trace_files_belowCircle : ∃ listing, cmdTraceAll 4 belowCircle belowCircle.getAllFileAccesses = some listing ∧
    ∀ e ∈ listing, belowCircle.ListsAccessors (· ∈ belowCircle.pids) e.1 e.2 := by
  obtain ⟨⟨listing, hlisting, -, -, hlists⟩, -⟩ := @trace_files belowCircle (by decide) 4 (by decide) _ (.refl _)
  exact ⟨listing, hlisting, hlists⟩

end Bdtrace
