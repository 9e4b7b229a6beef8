import Bdtrace.View.Parallelism
import Bdtrace.View.ProcessTree
import Bdtrace.View.TreeWalks
import Bdtrace.Web.ProcessEndpoints
import Mathlib.Data.Set.Card

/-! The depth of a process in the two timelines. The command line climbs to it and keeps what it finds in a cache, the
web server descends to it with a stack. -/
namespace Bdtrace
open Std (TreeMap)
open Tours
open Worklist (Child)

namespace Tables
variable (t : Tables)

/-- The processes of the table above a process. -/
def ancestors (pid : Int) : Set Int := {a | a ∈ t.pids ∧ Relation.TransGen t.Child a pid}

noncomputable def depth (pid : Int) : Nat := (t.ancestors pid).ncard

/-- The depth of whatever has this parent. -/
noncomputable def depthBelow (ppid : Int) : Nat := if ppid ∈ t.pids then t.depth ppid + 1 else 0

def pidPpid : TreeMap Int Int := t.allProcesses.foldl (fun m r => m.insert r.pid r.ppid) ∅

/-- The processes that `cmd_timeline` shows, sorted by start. -/
def timelineShown (minDurationMs : Int) : List ProcessRecord :=
  if spanUs t.allProcesses ≤ 0 then []
  else (t.allProcesses.filter fun r => 0 < r.endTimeUs ∧
    minDurationMs * 1000 ≤ r.endTimeUs - r.startTimeUs).insertionSort
    fun a b => a.startTimeUs ≤ b.startTimeUs

/-- The loop of `cmd_timeline` over the processes to be shown. -/
def cacheDepths (fuel : Nat) (shown : List ProcessRecord) (depthCache : TreeMap Int Int) : Option (TreeMap Int Int) :=
  shown.foldlM (fun cache r => depthOf t.pidPpid fuel cache r.pid) depthCache

/-- The list that the stack of `handle_timeline` makes. -/
def dfsOrder (sort : List ProcessRecord → List ProcessRecord) (fuel : Nat) : Option (List DfsEntry) :=
  let procs := compactRuns sort t.allProcesses
  timelineOrder (procs.foldl addChild ∅) fuel ((rootPids procs).map (⟨·, 0⟩))

/-- Every process once, at its depth and after its parent. -/
structure ListsTree (ordered : List DfsEntry) : Prop where
  once : (ordered.map (·.pid)).Perm t.pids
  depth : ∀ e ∈ ordered, e.depth = t.depth e.pid
  afterParent : ∀ r ∈ t.processes, r.ppid ∈ t.pids → [r.ppid, r.pid].Sublist (ordered.map (·.pid))

/-- What `cmd_timeline` has cached are depths of processes. -/
def DepthsCached (depthCache : TreeMap Int Int) : Prop :=
  ∀ p (d : Int), depthCache[p]? = some d → p ∈ t.pids ∧ d = t.depth p

private theorem timelineDepths_eq (fuel : Nat) (minDurationMs : Int) :
    timelineDepths fuel t minDurationMs = t.cacheDepths fuel (t.timelineShown minDurationMs) ∅ := by
  rw [timelineDepths, cacheDepths, timelineShown, pidPpid]
  cases t.allProcesses with
  | nil => rfl
  | cons first rest =>
    simp only [spanUs, timeSpan, List.foldl_map]
    split <;> rfl

end Tables

/-! ### Ancestors -/

section Depths
variable {t : Tables}

theorem finite_ancestors (t : Tables) (pid : Int) : (t.ancestors pid).Finite :=
  t.pids.toFinset.finite_toSet.subset fun _ ha => List.mem_toFinset.mpr ha.1

/-- A process has the ancestors of its parent and the parent, if the table has it. -/
theorem ancestors_eq (hk : t.pids.Nodup) {r : ProcessRecord} (hr : r ∈ t.processes) :
    t.ancestors r.pid = if r.ppid ∈ t.pids then insert r.ppid (t.ancestors r.ppid) else ∅ := by
  have habove : ∀ a, Relation.TransGen t.Child a r.pid ↔ a = r.ppid ∨ Relation.TransGen t.Child a r.ppid := by
    intro a
    constructor
    · intro h
      obtain ⟨b, hab, hb⟩ := Relation.TransGen.tail'_iff.mp h
      obtain rfl := Tables.child_unique t hk hb ⟨r, hr, rfl, rfl⟩
      exact Relation.reflTransGen_iff_eq_or_transGen.mp hab |>.imp_left Eq.symm
    · rintro (rfl | h)
      · exact .single ⟨r, hr, rfl, rfl⟩
      · exact h.tail ⟨r, hr, rfl, rfl⟩
  ext a
  simp only [Tables.ancestors, Set.mem_ofPred_eq, habove]
  split
  · rename_i hin
    rw [Set.mem_insert_iff, Set.mem_ofPred_eq]
    constructor
    · rintro ⟨ha, rfl | h⟩
      · exact .inl rfl
      · exact .inr ⟨ha, h⟩
    · rintro (rfl | ⟨ha, h⟩)
      · exact ⟨hin, .inl rfl⟩
      · exact ⟨ha, .inr h⟩
  · rename_i hout
    refine iff_of_false ?_ (Set.notMem_empty a)
    rintro ⟨ha, rfl | h⟩
    · exact hout ha
    · obtain ⟨b, -, s, hs, -, hpid⟩ := Relation.TransGen.tail'_iff.mp h
      exact hout (hpid ▸ List.mem_map_of_mem hs)

private theorem depth_eq (hk : t.pids.Nodup) (hacyclic : t.Acyclic) {r : ProcessRecord} (hr : r ∈ t.processes) :
    t.depth r.pid = t.depthBelow r.ppid := by
  rw [Tables.depth, ancestors_eq hk hr, Tables.depthBelow]
  split
  · have hself : r.ppid ∉ t.ancestors r.ppid := fun h => hacyclic r.ppid h.2
    rw [Set.ncard_insert_of_notMem hself (finite_ancestors t r.ppid), Tables.depth]
  · exact Set.ncard_empty Int

private theorem depthBelow_le (t : Tables) (ppid : Int) : t.depthBelow ppid ≤ t.pids.length + 1 := by
  have hle : (t.ancestors ppid).ncard ≤ t.pids.toFinset.card := by
    rw [← Set.ncard_coe_finset]
    exact Set.ncard_le_ncard (fun a ha => List.mem_toFinset.mpr ha.1) t.pids.toFinset.finite_toSet
  have hcard : t.pids.toFinset.card ≤ t.pids.length := List.toFinset_card_le t.pids
  unfold Tables.depthBelow Tables.depth
  split <;> omega

/-! ### The climb -/

/-- A pid keeps what was stored for it when the other rows are stored. -/
private theorem pidPpid_other (rs : List ProcessRecord) {m : TreeMap Int Int} {p : Int} (h : p ∉ rs.map (·.pid)) :
    (rs.foldl (fun m r => m.insert r.pid r.ppid) m)[p]? = m[p]? := by
  induction rs generalizing m with
  | nil => rfl
  | cons r rs ih =>
    rw [List.map_cons, List.mem_cons, not_or] at h
    have hne : compare r.pid p ≠ .eq := by simpa using Ne.symm h.1
    rw [List.foldl_cons, ih h.2, Std.TreeMap.getElem?_insert, if_neg hne]

private theorem getElem?_pidPpid (hk : t.pids.Nodup) (p q : Int) :
    t.pidPpid[p]? = some q ↔ ∃ r ∈ t.processes, r.pid = p ∧ r.ppid = q := by
  constructor
  · intro h
    rcases mem_pidPpid _ h with ⟨r, hr, hpid, hppid⟩ | hempty
    · exact ⟨r, (mem_allProcesses r).mp hr, hpid, hppid⟩
    · simp at hempty
  · rintro ⟨r, hr, rfl, rfl⟩
    obtain ⟨before, after, hsplit⟩ := List.append_of_mem ((mem_allProcesses r).mpr hr)
    have hnd := allProcesses_nodup hk
    rw [hsplit, List.map_append, List.map_cons, List.nodup_append, List.nodup_cons] at hnd
    rw [Tables.pidPpid, hsplit, List.foldl_append, List.foldl_cons, pidPpid_other after hnd.2.1.1]
    exact Std.TreeMap.getElem?_insert_self

/-- The depths along a chain count up from its far end. -/
private theorem assignDepths_cons (base : Int) (p : Int) (chain : List Int) (depthCache : TreeMap Int Int) :
    assignDepths base (p :: chain) depthCache =
      (assignDepths base chain depthCache).insert p (base + (chain.length : Int)) := by
  have hnext : ∀ (l : List Int) (acc : TreeMap Int Int × Int),
      (l.foldl (fun (acc : TreeMap Int Int × Int) pid => (acc.1.insert pid acc.2, acc.2 + 1)) acc).2 =
        acc.2 + (l.length : Int) := by
    intro l
    induction l with
    | nil => exact fun acc => (Int.add_zero _).symm
    | cons q l ih =>
      intro acc
      rw [List.foldl_cons, ih, List.length_cons, Nat.cast_add, Nat.cast_one, Int.add_comm (l.length : Int) 1,
        ← Int.add_assoc]
  simp only [assignDepths, List.reverse_cons, List.foldl_append, List.foldl_cons, List.foldl_nil, hnext,
    List.length_reverse]

/-- The depth of the last process of a chain that ends at `stop`. -/
def baseDepth (depthCache : TreeMap Int Int) (stop : Int) : Int := (depthCache[stop]?.map (· + 1)).getD 0

/-- What a climb from `cur` leaves in the cache. -/
structure Climbed (t : Tables) (cur : Int) (before after : TreeMap Int Int) : Prop where
  sound : t.DepthsCached after
  kept : ∀ p ∈ before, p ∈ after
  found : cur ∈ t.pids → cur ∈ after

/-- The chain from `cur` is as much longer than its start is deep. -/
private theorem climbed_depthChain (hk : t.pids.Nodup) (hacyclic : t.Acyclic) {depthCache : TreeMap Int Int}
    (hsound : t.DepthsCached depthCache) {fuel : Nat} {cur : Int} {found : List Int × Int}
    (h : depthChain t.pidPpid depthCache fuel cur = some found) :
    baseDepth depthCache found.2 + (found.1.length : Int) = (t.depthBelow cur : Int) ∧
      Climbed t cur depthCache (assignDepths (baseDepth depthCache found.2) found.1 depthCache) := by
  induction fuel generalizing cur found with
  | zero => cases h
  | succ fuel ih =>
    rw [depthChain] at h
    split at h
    · rename_i hout
      obtain rfl := Option.some.inj h
      have hpid : cur ∉ t.pids := fun hin => by
        obtain ⟨r, hr, rfl⟩ := List.mem_map.mp hin
        rw [(getElem?_pidPpid hk r.pid r.ppid).mpr ⟨r, hr, rfl, rfl⟩] at hout
        cases hout
      have hcache : depthCache[cur]? = none := by
        cases hd : depthCache[cur]? with
        | none => rfl
        | some d => exact absurd (hsound cur d hd).1 hpid
      refine ⟨?_, hsound, fun p hp => hp, fun hin => absurd hin hpid⟩
      rw [baseDepth, hcache, Tables.depthBelow, if_neg hpid]
      rfl
    · rename_i ppid hppid
      obtain ⟨r, hr, rfl, rfl⟩ := (getElem?_pidPpid hk _ _).mp hppid
      split at h
      · rename_i hcached
        obtain rfl := Option.some.inj h
        obtain ⟨d, hd⟩ := Option.isSome_iff_exists.mp (Std.TreeMap.mem_iff_isSome_getElem?.mp hcached)
        obtain ⟨hin, rfl⟩ := hsound r.pid d hd
        refine ⟨?_, hsound, fun p hp => hp, fun _ => hcached⟩
        rw [baseDepth, hd, Tables.depthBelow, if_pos hin]
        rfl
      · obtain ⟨above, habove, rfl⟩ := Option.map_eq_some_iff.mp h
        obtain ⟨hlength, hclimbed⟩ := ih habove
        have hdepth := depth_eq hk hacyclic hr
        have hin : r.pid ∈ t.pids := List.mem_map_of_mem hr
        refine ⟨?_, ?_, ?_, ?_⟩
        · rw [Tables.depthBelow, if_pos hin, hdepth]
          simp only [List.length_cons]
          omega
        · intro p d hd
          simp only [assignDepths_cons, hlength, Std.TreeMap.getElem?_insert] at hd
          split at hd
          · rename_i heq
            obtain rfl := compare_eq_iff_eq.mp heq
            obtain rfl := Option.some.inj hd
            exact ⟨hin, by rw [hdepth]⟩
          · exact hclimbed.sound p d hd
        · intro p hp
          rw [assignDepths_cons]
          exact Std.TreeMap.mem_insert.mpr (.inr (hclimbed.kept p hp))
        · intro _
          rw [assignDepths_cons]
          exact Std.TreeMap.mem_insert_self

private theorem climbed_depthOf (hk : t.pids.Nodup) (hacyclic : t.Acyclic) {before after : TreeMap Int Int}
    (hsound : t.DepthsCached before) {fuel : Nat} {p : Int} (h : depthOf t.pidPpid fuel before p = some after) :
    Climbed t p before after := by
  rw [depthOf] at h
  split at h
  · rename_i hp
    obtain rfl := Option.some.inj h
    exact ⟨hsound, fun q hq => hq, fun _ => hp⟩
  · obtain ⟨found, hfound, rfl⟩ := Option.map_eq_some_iff.mp h
    exact (climbed_depthChain hk hacyclic hsound hfound).2

/-- With enough fuel a climb ends whatever is cached. -/
private theorem isSome_depthOf (hk : t.pids.Nodup) (hacyclic : t.Acyclic) {fuel : Nat}
    (hfuel : t.pids.length + 2 ≤ fuel)
    (depthCache : TreeMap Int Int) (p : Int) : (depthOf t.pidPpid fuel depthCache p).isSome := by
  rw [depthOf]
  split
  · rfl
  · rw [Option.isSome_map]
    refine @depthChain_isSome _ t.depthBelow ?_ depthCache _ _ ?_
    · intro pid ppid h
      obtain ⟨r, hr, rfl, rfl⟩ := (getElem?_pidPpid hk pid ppid).mp h
      have hbelow : t.depthBelow r.pid = t.depth r.pid + 1 := if_pos (List.mem_map_of_mem hr)
      rw [hbelow, depth_eq hk hacyclic hr]
      exact Nat.lt_succ_self _
    · have := depthBelow_le t p
      omega

/-- The loop over the processes, in any order, finds the depth of each. -/
private theorem cacheDepths_run (hk : t.pids.Nodup) (hacyclic : t.Acyclic) {fuel : Nat}
    (hfuel : t.pids.length + 2 ≤ fuel)
    (shown : List ProcessRecord) {before : TreeMap Int Int} (hsound : t.DepthsCached before) :
    ∃ after, t.cacheDepths fuel shown before = some after ∧ t.DepthsCached after ∧ (∀ p ∈ before, p ∈ after) ∧
      ∀ r ∈ shown, r.pid ∈ t.pids → r.pid ∈ after := by
  induction shown generalizing before with
  | nil => exact ⟨before, rfl, hsound, fun p hp => hp, fun r hr => absurd hr List.not_mem_nil⟩
  | cons r shown ih =>
    obtain ⟨middle, hmiddle⟩ := Option.isSome_iff_exists.mp (isSome_depthOf hk hacyclic hfuel before r.pid)
    have hclimbed := climbed_depthOf hk hacyclic hsound hmiddle
    obtain ⟨after, hafter, hsound', hkept, hfound⟩ := ih hclimbed.sound
    refine ⟨after, ?_, hsound', fun p hp => hkept p (hclimbed.kept p hp), ?_⟩
    · rw [Tables.cacheDepths, List.foldlM_cons, hmiddle]
      exact hafter
    · intro s hs hin
      rcases List.mem_cons.mp hs with rfl | hs
      · exact hkept _ (hclimbed.found hin)
      · exact hfound s hs hin

private theorem cacheDepths_exact (hk : t.pids.Nodup) (hacyclic : t.Acyclic) {fuel : Nat}
    (hfuel : t.pids.length + 2 ≤ fuel)
    {shown : List ProcessRecord} (hshown : ∀ r ∈ shown, r ∈ t.processes) :
    ∃ cache, t.cacheDepths fuel shown ∅ = some cache ∧ ∀ r ∈ shown, cache[r.pid]? = some (t.depth r.pid : Int) := by
  have hempty : t.DepthsCached ∅ := fun p d hd => by simp at hd
  obtain ⟨cache, hcache, hsound, -, hfound⟩ := cacheDepths_run hk hacyclic hfuel shown hempty
  refine ⟨cache, hcache, fun r hr => ?_⟩
  have hin := hfound r hr (List.mem_map_of_mem (hshown r hr))
  obtain ⟨d, hd⟩ := Option.isSome_iff_exists.mp (Std.TreeMap.mem_iff_isSome_getElem?.mp hin)
  rw [hd, (hsound r.pid d hd).2]

/-! ### The descent -/

theorem getD_foldl_addChild (procs : List ProcessRecord) (m : TreeMap Int (List Int)) (p : Int) :
    (procs.foldl addChild m).getD p [] = m.getD p [] ++ (procs.filter fun r => r.ppid = p).map (·.pid) := by
  induction procs generalizing m with
  | nil => simp
  | cons r procs ih =>
    rw [List.foldl_cons, ih]
    by_cases h : r.ppid = p
    · subst h
      simp [addChild, Std.TreeMap.getD_eq_getD_getElem?]
    · have hne : compare r.ppid p ≠ .eq := by simpa using h
      simp [addChild, Std.TreeMap.getD_alter, hne, h]

/-- The list that a stack makes of entries at their depths, in a tree whose children are one level deeper. -/
private theorem timelineOrder_eq {children : TreeMap Int (List Int)} {next : Int → List Int}
    (hnext : ∀ p, children.getD p [] = next p) (hwf : WellFounded (Child next)) {inside : Int → Prop}
    {depth : Int → Nat}
    (hdepth : ∀ p, inside p → ∀ c ∈ next p, inside c ∧ depth c = depth p + 1) {fuel : Nat} {stack : List DfsEntry}
    (hstack : ∀ e ∈ stack, inside e.pid ∧ e.depth = depth e.pid)
    (hfuel : ((stack.map (·.pid)).flatMap (subtree hwf)).length ≤ fuel) :
    timelineOrder children fuel stack =
      some (((stack.map (·.pid)).flatMap (subtree hwf)).map fun p => ⟨p, depth p⟩) := by
  induction fuel generalizing stack with
  | zero =>
    cases stack with
    | nil => rfl
    | cons top stack =>
      rw [List.map_cons, List.flatMap_cons, subtree_eq] at hfuel
      simp at hfuel
  | succ fuel ih =>
    cases stack with
    | nil => rfl
    | cons top stack =>
      obtain ⟨⟨htop, hlevel⟩, hrest⟩ := List.forall_mem_cons.mp hstack
      have hpop : ((top :: stack).map (·.pid)).flatMap (subtree hwf) = top.pid ::
          (((children.getD top.pid []).map (⟨·, top.depth + 1⟩ : Int → DfsEntry) ++ stack).map (·.pid)).flatMap
            (subtree hwf) := by
        rw [List.map_cons, List.flatMap_cons, subtree_eq, hnext]
        simp [Function.comp_def]
      have hpushed : ∀ e ∈ (children.getD top.pid []).map (⟨·, top.depth + 1⟩ : Int → DfsEntry) ++ stack,
          inside e.pid ∧ e.depth = depth e.pid := by
        intro e he
        rcases List.mem_append.mp he with he | he
        · obtain ⟨c, hc, rfl⟩ := List.mem_map.mp he
          rw [hnext] at hc
          obtain ⟨hin, hc⟩ := hdepth top.pid htop c hc
          exact ⟨hin, by rw [hc, hlevel]⟩
        · exact hrest e he
      rw [hpop, List.length_cons] at hfuel
      rw [timelineOrder, ih hpushed (Nat.le_of_succ_le_succ hfuel), hpop, List.map_cons, Option.map_some, ← hlevel]

private theorem getD_children {sort : List ProcessRecord → List ProcessRecord} (hsort : SortsByStart sort)
    (hk : t.pids.Nodup)
    (p : Int) : ((compactRuns sort t.allProcesses).foldl addChild ∅).getD p [] =
      (buildDependencyGraph t).childrenOf p := by
  rw [getD_foldl_addChild, compactRuns_eq hsort (allProcesses_nodup hk),
    DependencyGraph.childrenOf_built, List.filter_map,
    List.map_map, Std.TreeMap.getD_emptyc, List.nil_append]
  rfl

/-- The roots are the same with and without the idle time. -/
private theorem rootPids_compactRuns {sort : List ProcessRecord → List ProcessRecord} (hsort : SortsByStart sort)
    (hk : t.pids.Nodup) : rootPids (compactRuns sort t.allProcesses) = t.rootProcesses.map (·.pid) := by
  have hpids : (compactRuns sort t.allProcesses).map (·.pid) = t.allProcesses.map (·.pid) := by
    rw [compactRuns_eq hsort (allProcesses_nodup hk), List.map_map]
    rfl
  have hmem : ∀ p, p ∈ t.allProcesses.map (·.pid) ↔ p ∈ t.pids := fun p =>
    ((List.perm_insertionSort _ _).map (fun r : ProcessRecord => r.pid)).mem_iff
  rw [rootPids, hpids, compactRuns_eq hsort (allProcesses_nodup hk), List.filter_map, List.map_map,
    Tables.rootProcesses]
  simp only [hmem]
  rfl

/-- What is below the roots is the table. -/
private theorem perm_subtrees (hk : t.pids.Nodup) (hacyclic : t.Acyclic) :
    ((t.rootProcesses.map (·.pid)).flatMap
      (subtree (DependencyGraph.isForest_built hk hacyclic).wellFounded)).Perm t.pids := by
  refine (List.perm_ext_iff_of_nodup ?_ hk).mpr fun p => ?_
  · apply (DependencyGraph.isForest_built hk hacyclic).nodup_subtrees (rootProcesses_nodup hk)
    intro a ha b hb hreach
    obtain ⟨r, hr, rfl⟩ := List.mem_map.mp ha
    obtain ⟨s, hs, rfl⟩ := List.mem_map.mp hb
    obtain ⟨hr, -⟩ := (mem_rootProcesses r).mp hr
    obtain ⟨hs, hout⟩ := (mem_rootProcesses s).mp hs
    exact DependencyGraph.root_top hk (List.mem_map_of_mem hr) hs hout
      ((DependencyGraph.reaches_iff_child _ _).mp hreach)
  · simp only [List.mem_flatMap, mem_subtree, DependencyGraph.reaches_iff_child]
    constructor
    · rintro ⟨root, hroot, hreach⟩
      rcases hreach.cases_tail with rfl | ⟨q, -, r, hr, -, rfl⟩
      · obtain ⟨r, hr, rfl⟩ := List.mem_map.mp hroot
        exact List.mem_map_of_mem ((mem_rootProcesses r).mp hr).1
      · exact List.mem_map_of_mem hr
    · intro hp
      obtain ⟨root, hroot, hout, hreach⟩ := DependencyGraph.exists_root hacyclic hp
      exact ⟨root.pid, List.mem_map_of_mem ((mem_rootProcesses root).mpr ⟨hroot, hout⟩), hreach⟩

private theorem dfsOrder_listsTree {sort : List ProcessRecord → List ProcessRecord} (hsort : SortsByStart sort)
    (hk : t.pids.Nodup)
    (hacyclic : t.Acyclic) {fuel : Nat} (hfuel : t.pids.length ≤ fuel) :
    ∃ ordered, t.dfsOrder sort fuel = some ordered ∧ t.ListsTree ordered := by
  have hforest := DependencyGraph.isForest_built hk hacyclic
  have hperm := perm_subtrees hk hacyclic
  have hdepth : ∀ p, p ∈ t.pids → ∀ c ∈ (buildDependencyGraph t).childrenOf p, c ∈ t.pids ∧
      t.depth c = t.depth p + 1 := by
    intro p hp c hc
    obtain ⟨r, hr, rfl, rfl⟩ := (DependencyGraph.mem_childrenOf t p c).mp hc
    refine ⟨List.mem_map_of_mem hr, ?_⟩
    rw [depth_eq hk hacyclic hr, Tables.depthBelow, if_pos hp]
  have hroots : ∀ e ∈ (t.rootProcesses.map (·.pid)).map (⟨·, 0⟩ : Int → DfsEntry),
      e.pid ∈ t.pids ∧ e.depth = t.depth e.pid := by
    intro e he
    obtain ⟨p, hp, rfl⟩ := List.mem_map.mp he
    obtain ⟨r, hr, rfl⟩ := List.mem_map.mp hp
    obtain ⟨hr, hout⟩ := (mem_rootProcesses r).mp hr
    refine ⟨List.mem_map_of_mem hr, ?_⟩
    rw [depth_eq hk hacyclic hr, Tables.depthBelow, if_neg hout]
  have hpids : ((t.rootProcesses.map (·.pid)).map (⟨·, 0⟩ : Int → DfsEntry)).map (·.pid) =
      t.rootProcesses.map (·.pid) := by
    rw [List.map_map]
    exact List.map_id _
  rw [← hperm.length_eq, ← hpids] at hfuel
  have horder := timelineOrder_eq (getD_children hsort hk) hforest.wellFounded hdepth hroots hfuel
  rw [hpids] at horder
  refine ⟨_, (by rw [Tables.dfsOrder, rootPids_compactRuns hsort hk]; exact horder), ?_, ?_, ?_⟩
  · rw [List.map_map]
    exact (List.map_id _).symm ▸ hperm
  · intro e he
    obtain ⟨p, -, rfl⟩ := List.mem_map.mp he
    rfl
  · intro r hr hin
    rw [List.map_map]
    refine (List.map_id _).symm ▸ parent_first hforest.wellFounded (hperm.mem_iff.mpr hin) ?_
    exact (DependencyGraph.mem_childrenOf t r.ppid r.pid).mpr ⟨r, hr, rfl, rfl⟩

/-- The answer has entries of the list, in its order. -/
private theorem emitTimeline_sublist {procMap : TreeMap Int ProcessRecord}
    (hpid : ∀ (p : Int) r, procMap[p]? = some r → r.pid = p)
    (minDurUs limit emitted : Int) (ordered : List DfsEntry) :
    ((emitTimeline procMap minDurUs limit emitted ordered).1.map fun e =>
      (⟨e.pid, e.depth⟩ : DfsEntry)).Sublist ordered := by
  induction ordered generalizing emitted with
  | nil => exact List.Sublist.slnil
  | cons d rest ih =>
    rw [emitTimeline]
    split
    · exact (ih emitted).cons d
    · rename_i p hp
      split
      · exact (ih emitted).cons d
      · split
        · exact List.nil_sublist _
        · rw [List.map_cons, hpid d.pid p hp]
          exact (ih (emitted + 1)).cons_cons d

private theorem handleTimeline_eq {sort : List ProcessRecord → List ProcessRecord} {fuel : Nat}
    {ordered : List DfsEntry}
    (h : t.dfsOrder sort fuel = some ordered) (minDurUs limit : Int) :
    ∃ answer, handleTimeline sort t fuel minDurUs limit = some answer ∧ answer.totalCount = ordered.length ∧
      (answer.processes.map fun e => (⟨e.pid, e.depth⟩ : DfsEntry)).Sublist ordered := by
  rw [Tables.dfsOrder] at h
  rw [handleTimeline]
  cases hprocs : compactRuns sort t.allProcesses with
  | nil =>
    rw [hprocs] at h
    have hempty : some [] = some ordered := by rw [← h]; cases fuel <;> rfl
    obtain rfl := Option.some.inj hempty
    exact ⟨_, rfl, rfl, List.nil_sublist _⟩
  | cons first rest =>
    rw [hprocs] at h
    simp only at h ⊢
    rw [h]
    refine ⟨_, rfl, rfl, emitTimeline_sublist (fun p r hr => ?_) _ _ _ _⟩
    rcases mem_of_foldl_insert _ hr with ⟨-, hpid⟩ | hempty
    · exact hpid
    · simp at hempty

/-- Both timelines put each process at the depth of the number of its ancestors, and the web server lists each once,
after its parent. -/
theorem timeline_depths_agree {sort : List ProcessRecord → List ProcessRecord} (hsort : SortsByStart sort)
    (hk : t.pids.Nodup) (hacyclic : t.Acyclic) {fuel : Nat} (hfuel : t.pids.length + 2 ≤ fuel) :
    (∀ shown : List ProcessRecord, (∀ r ∈ shown, r ∈ t.processes) →
      ∃ cache, t.cacheDepths fuel shown ∅ = some cache ∧ ∀ r ∈ shown, cache[r.pid]? = some (t.depth r.pid : Int)) ∧
    (∀ minDurationMs, ∃ cache, timelineDepths fuel t minDurationMs = some cache ∧
      ∀ r ∈ t.timelineShown minDurationMs, cache[r.pid]? = some (t.depth r.pid : Int)) ∧
    ∃ ordered, t.dfsOrder sort fuel = some ordered ∧ t.ListsTree ordered ∧
      ∀ minDurUs limit, ∃ answer, handleTimeline sort t fuel minDurUs limit = some answer ∧
        answer.totalCount = t.processes.length ∧
        (answer.processes.map fun e => (⟨e.pid, e.depth⟩ : DfsEntry)).Sublist ordered := by
  refine ⟨fun shown hshown => cacheDepths_exact hk hacyclic hfuel hshown, fun minDurationMs => ?_, ?_⟩
  · rw [Tables.timelineDepths_eq]
    apply cacheDepths_exact hk hacyclic hfuel
    intro r hr
    rw [Tables.timelineShown] at hr
    split at hr
    · cases hr
    · rw [List.mem_insertionSort] at hr
      exact (mem_allProcesses r).mp (List.mem_of_mem_filter hr)
  · have hlength : t.pids.length ≤ fuel := by omega
    obtain ⟨ordered, hordered, hlists⟩ := dfsOrder_listsTree hsort hk hacyclic hlength
    refine ⟨ordered, hordered, hlists, fun minDurUs limit => ?_⟩
    obtain ⟨answer, hanswer, hcount, hshown⟩ := handleTimeline_eq hordered minDurUs limit
    refine ⟨answer, hanswer, hcount.trans ?_, hshown⟩
    rw [← List.length_map (·.pid), hlists.once.length_eq, Tables.pids, List.length_map]

end Depths

/-- A build whose parent started with its children, and one process of another shell. -/
private def siblings : Tables where
  processes := [{ pid := 2, ppid := 1, startTimeUs := 10, endTimeUs := 30 },
    { pid := 1, startTimeUs := 10, endTimeUs := 90 }, { pid := 3, ppid := 2, startTimeUs := 20, endTimeUs := 25 },
    { pid := 7, ppid := 5, startTimeUs := 40, endTimeUs := 60 }]

theorem timeline_depths_agree_siblings : ∃ ordered, siblings.dfsOrder stableSort 6 = some ordered ∧
    siblings.ListsTree ordered := by
  have hacyclic : siblings.Acyclic := Tables.acyclic_of_rank (fun p => p.toNat) (by decide)
  have hfuel : siblings.pids.length + 2 ≤ 6 := by decide
  obtain ⟨-, -, ordered, hordered, hlists, -⟩ := timeline_depths_agree stableSort_sorts (by decide) hacyclic hfuel
  exact ⟨ordered, hordered, hlists⟩

end Bdtrace
