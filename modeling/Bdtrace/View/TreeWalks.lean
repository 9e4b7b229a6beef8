import Bdtrace.View.RebuildSet

/-! The walks of the viewers over the process tree. None keeps a visited set. -/
namespace Bdtrace
open Std (TreeMap TreeSet)
open Worklist StoppableLoops

/-! ### Downwards -/

structure DescendantStats where
  descFileCount : Int := 0
  descFailCount : Int := 0
  descCpuUs : Int := 0
  descPeakRssKb : Int := 0
  descIoBytes : Int := 0
  deriving DecidableEq, Repr

namespace DescendantStats

def own (r : ProcessRecord) : DescendantStats where
  descFileCount := r.fileCount
  descFailCount := r.failCount
  descCpuUs := r.userTimeUs + r.sysTimeUs
  descPeakRssKb := r.peakRssKb
  descIoBytes := r.ioReadBytes + r.ioWriteBytes

def add (ds child : DescendantStats) : DescendantStats where
  descFileCount := ds.descFileCount + child.descFileCount
  descFailCount := ds.descFailCount + child.descFailCount
  descCpuUs := ds.descCpuUs + child.descCpuUs
  descPeakRssKb := if child.descPeakRssKb > ds.descPeakRssKb then child.descPeakRssKb else ds.descPeakRssKb
  descIoBytes := ds.descIoBytes + child.descIoBytes

end DescendantStats

abbrev StatsCache := TreeMap Int DescendantStats

/-- The recursion of `compute_desc_one`; `none` when it is deeper than the fuel. -/
def computeDescOne (g : DependencyGraph) : Nat → Int → StatsCache → Option (DescendantStats × StatsCache)
  | 0, _, _ => none
  | fuel + 1, pid, cache =>
    match cache[pid]? with
    | some ds => some (ds, cache)
    | none =>
      let own := (g.procMap[pid]?.map DescendantStats.own).getD {}
      ((g.childrenOf pid).foldlM (fun (acc : DescendantStats × StatsCache) child =>
        (computeDescOne g fuel child acc.2).map fun found => (acc.1.add found.1, found.2)) (own, cache)).map
          fun found => (found.1, found.2.insert pid found.1)

/-- `SELECT pid FROM processes WHERE ppid = ?`. -/
def Tables.childPids (t : Tables) (ppid : Int) : List Int :=
  (t.processes.filter fun r => r.ppid = ppid).map (·.pid)

/-- `Database::get_descendant_pids`: `UNION ALL` takes the rows off a queue and keeps duplicates. -/
def Tables.getDescendantPids (t : Tables) (fuel : Nat) (rootPid : Int) : Option (List Int) :=
  walk t.childPids fuel (t.childPids rootPid)

/-! ### Upwards -/

/-- The climb of `cmd_timeline` from one process to a known depth or out of the table. -/
def depthChain (pidPpid : TreeMap Int Int) (depthCache : TreeMap Int Int) : Nat → Int → Option (List Int × Int)
  | 0, _ => none
  | fuel + 1, cur =>
    match pidPpid[cur]? with
    | none => some ([], cur)
    | some ppid =>
      if cur ∈ depthCache then some ([], cur)
      else (depthChain pidPpid depthCache fuel ppid).map fun found => (cur :: found.1, found.2)

/-- The depths along a chain, from its far end. -/
def assignDepths (base : Int) (chain : List Int) (depthCache : TreeMap Int Int) : TreeMap Int Int :=
  (chain.reverse.foldl (fun acc pid => (acc.1.insert pid acc.2, acc.2 + 1)) (depthCache, base)).1

def depthOf (pidPpid : TreeMap Int Int) (fuel : Nat) (depthCache : TreeMap Int Int) (pid : Int) :
    Option (TreeMap Int Int) :=
  if pid ∈ depthCache then some depthCache
  else (depthChain pidPpid depthCache fuel pid).map fun found =>
    assignDepths ((depthCache[found.2]?.map (· + 1)).getD 0) found.1 depthCache

/-- The depths that `cmd_timeline` indents by; nothing is walked when it has nothing to show. -/
def timelineDepths (fuel : Nat) (t : Tables) (minDurationMs : Int) : Option (TreeMap Int Int) :=
  match t.allProcesses with
  | [] => some ∅
  | first :: rest =>
    let procs := first :: rest
    let minTime := rest.foldl (fun m r => min m r.startTimeUs) first.startTimeUs
    let maxTime := rest.foldl (fun m r => max m r.endTimeUs) first.endTimeUs
    if maxTime - minTime ≤ 0 then some ∅
    else
      let filtered :=
        (procs.filter fun r => 0 < r.endTimeUs ∧ minDurationMs * 1000 ≤ r.endTimeUs - r.startTimeUs).insertionSort
        fun a b => a.startTimeUs ≤ b.startTimeUs
      let pidPpid : TreeMap Int Int := procs.foldl (fun m r => m.insert r.pid r.ppid) ∅
      filtered.foldlM (fun cache r => depthOf pidPpid fuel cache r.pid) ∅

/-! ### Termination -/

/-- Every walk over the stored tree ends, and no chain of stored parents returns to its start. -/
structure WalksEnd (t : Tables) : Prop where
  links : ∀ p, ¬ Relation.TransGen (fun a b => ∃ r ∈ t.processes, r.pid = a ∧ r.ppid = b) p p
  desc : ∀ pid cache, ∃ n, ∀ fuel, n ≤ fuel → (computeDescOne (buildDependencyGraph t) fuel pid cache).isSome
  descendants : ∀ rootPid, ∃ n, ∀ fuel, n ≤ fuel → (t.getDescendantPids fuel rootPid).isSome
  rebuild : ∀ affected names, ∃ n, ∀ fuel, n ≤ fuel →
    filterRebuildSet fuel (buildDependencyGraph t) affected names ≠ .error .outOfFuel
  timeline : ∀ minDurationMs, ∃ n, ∀ fuel, n ≤ fuel → (timelineDepths fuel t minDurationMs).isSome

/-- The recursion is no deeper than the pops of a worklist would be many. -/
theorem computeDescOne_isSome {g : DependencyGraph} (hwf : WellFounded (Child g.childrenOf)) {fuel : Nat} {pid : Int}
    (h : weight hwf pid ≤ fuel) (cache : StatsCache) : (computeDescOne g fuel pid cache).isSome := by
  induction fuel generalizing pid cache with
  | zero =>
    rw [weight_eq] at h
    omega
  | succ fuel ih =>
    rw [computeDescOne]
    split
    · rfl
    · rw [Option.isSome_map]
      refine isSome_foldlM (fun acc child hchild => ?_) _
      have hlt := weight_lt_of_child hwf hchild
      rw [Option.isSome_map]
      exact ih (by omega) acc.2

private theorem loopDone_ne {α : Type} {o : Option α} (h : o.isSome) : loopDone o ≠ .error .outOfFuel := by
  obtain ⟨a, rfl⟩ := Option.isSome_iff_exists.mp h
  exact fun h => by cases h

private theorem filterRebuildSet_ends {g : DependencyGraph} (hwf : WellFounded (Child g.childrenOf))
    (affected : TreeSet Int)
    (names : TreeSet Str) {fuel : Nat} (h : ((g.collapsedPids names).map (weight hwf)).sum ≤ fuel) :
    filterRebuildSet fuel g affected names ≠ .error .outOfFuel := by
  have hwalk : ∀ c ∈ g.collapsedPids names, ∃ l, walk g.childrenOf fuel [c] = some l := fun c hc => by
    apply walk_total hwf
    rw [List.map_singleton, List.sum_singleton]
    exact (List.le_sum_of_mem (List.mem_map_of_mem hc)).trans h
  have hproc : ∀ p, g.procAt p ≠ .error .outOfFuel := fun p => by
    simp only [DependencyGraph.procAt]
    split <;> exact fun h => by cases h
  apply bind_ne
  · refine mapM_ne fun c hc => loopDone_ne ?_
    obtain ⟨l, hl⟩ := hwalk c hc
    rw [DependencyGraph.collapseLoop_eq, hl]
    rfl
  intro kids
  apply bind_ne
  · refine mapM_ne fun c hc => loopDone_ne ?_
    obtain ⟨l, hl⟩ := hwalk c hc
    rw [DependencyGraph.affectedBelowLoop_eq hl]
    rfl
  intro flags
  apply bind_ne (mapM_ne fun p _ => hproc p)
  intro leaves
  apply bind_ne (mapM_ne fun p _ => hproc p)
  intro tops
  exact fun h => by cases h

theorem depthChain_isSome {pidPpid : TreeMap Int Int} {rank : Int → Nat}
    (h : ∀ pid ppid, pidPpid[pid]? = some ppid → rank ppid < rank pid) (cache : TreeMap Int Int) {fuel : Nat}
    {cur : Int} (hf : rank cur < fuel) : (depthChain pidPpid cache fuel cur).isSome := by
  induction fuel generalizing cur with
  | zero => omega
  | succ fuel ih =>
    rw [depthChain]
    split
    · rfl
    · rename_i ppid hppid
      split
      · rfl
      · rw [Option.isSome_map]
        have := h cur ppid hppid
        exact ih (by omega)

theorem mem_pidPpid (rs : List ProcessRecord) {m : TreeMap Int Int} {p q : Int}
    (h : (rs.foldl (fun m r => m.insert r.pid r.ppid) m)[p]? = some q) :
    (∃ r ∈ rs, r.pid = p ∧ r.ppid = q) ∨ m[p]? = some q := by
  induction rs generalizing m with
  | nil => exact .inr h
  | cons r rs ih =>
    rcases ih h with ⟨r', hr', hrest⟩ | hm
    · exact .inl ⟨r', List.mem_cons_of_mem _ hr', hrest⟩
    · by_cases hp : r.pid = p
      · subst hp
        rw [Std.TreeMap.getElem?_insert_self] at hm
        exact .inl ⟨r, List.mem_cons_self, rfl, Option.some.inj hm⟩
      · have hne : compare r.pid p ≠ .eq := by simpa using hp
        rw [Std.TreeMap.getElem?_insert, if_neg hne] at hm
        exact .inr hm

/-- The query for children finds those that the graph links. -/
theorem mem_childPids (t : Tables) (p c : Int) : c ∈ t.childPids p ↔ c ∈ (buildDependencyGraph t).childrenOf p := by
  simp only [DependencyGraph.mem_childrenOf, Tables.childPids, List.mem_map, List.mem_filter,
    decide_eq_true_eq, and_assoc]

/-- Rows whose parents have a smaller rank: every walk ends. -/
theorem walksEnd_of_rank {t : Tables} (hk : t.pids.Nodup) (rank : Int → Nat)
    (h : ∀ r ∈ t.processes, rank r.ppid < rank r.pid) : WalksEnd t := by
  have hg := DependencyGraph.forest_built hk rank h
  have hwf := hg.wellFounded
  have hchild : Child t.childPids = Child (buildDependencyGraph t).childrenOf := by
    funext b a
    exact propext (mem_childPids t a b)
  refine ⟨fun p hp => ?_, fun pid cache => ?_, fun rootPid => ?_, fun affected names => ?_, fun minDurationMs => ?_⟩
  · refine Worklist.acyclic_of_rank (fun p => OrderDual.toDual (rank p)) ?_ p hp
    rintro a b ⟨r, hr, rfl, rfl⟩
    exact h r hr
  · exact ⟨weight hwf pid, fun fuel hfuel => computeDescOne_isSome hwf hfuel cache⟩
  · have hwf' : WellFounded (Child t.childPids) := hchild ▸ hwf
    refine ⟨((t.childPids rootPid).map (weight hwf')).sum, fun fuel hfuel => ?_⟩
    obtain ⟨l, hl⟩ := walk_total hwf' hfuel
    rw [Tables.getDescendantPids, hl]
    rfl
  · exact ⟨_, fun fuel hfuel => filterRebuildSet_ends hwf affected names hfuel⟩
  · refine ⟨(t.processes.map fun r => rank r.pid).sum + 1, fun fuel hfuel => ?_⟩
    have hperm : t.allProcesses.Perm t.processes := List.perm_insertionSort _ _
    rw [timelineDepths]
    cases hall : t.allProcesses with
    | nil => rfl
    | cons first rest =>
      simp only
      split
      · rfl
      · refine isSome_foldlM (fun cache r hr => ?_) _
        have hmem : r ∈ t.processes := by
          rw [List.mem_insertionSort] at hr
          have hin := List.mem_of_mem_filter hr
          rw [← hall] at hin
          exact hperm.mem_iff.mp hin
        rw [depthOf]
        split
        · rfl
        · rw [Option.isSome_map]
          refine @depthChain_isSome _ rank (fun pid ppid hp => ?_) cache _ _ ?_
          · rcases mem_pidPpid _ hp with ⟨r', hr', rfl, rfl⟩ | hempty
            · rw [← hall] at hr'
              exact h r' (hperm.mem_iff.mp hr')
            · simp at hempty
          · have hle := List.le_sum_of_mem (List.mem_map_of_mem (f := fun r : ProcessRecord => rank r.pid) hmem)
            omega

/-! ### Endless walks -/

/-- A recursion that returns has not met a process from which a path never ends. -/
private theorem computeDescOne_avoids {g : DependencyGraph} {Bad : Int → Prop}
    (h : ∀ a, Bad a → ∃ b ∈ g.childrenOf a, Bad b) {fuel : Nat} {pid : Int} {cache : StatsCache}
    {found : DescendantStats × StatsCache} (hc : ∀ a, Bad a → a ∉ cache)
    (hf : computeDescOne g fuel pid cache = some found) : ¬ Bad pid ∧ ∀ a, Bad a → a ∉ found.2 := by
  induction fuel generalizing pid cache found with
  | zero => cases hf
  | succ fuel ih =>
    rw [computeDescOne] at hf
    split at hf
    · rename_i ds hds
      obtain rfl := Option.some.inj hf
      refine ⟨fun hbad => hc pid hbad ?_, hc⟩
      exact Std.TreeMap.mem_iff_isSome_getElem?.mpr (by rw [hds]; rfl)
    · obtain ⟨acc, hacc, rfl⟩ := Option.map_eq_some_iff.mp hf
      obtain ⟨hgood, hcache⟩ := foldlM_invariant (I := fun acc : DescendantStats × StatsCache => ∀ a, Bad a → a ∉ acc.2)
        (G := fun child => ¬ Bad child) (fun acc child acc' hI hstep => by
          obtain ⟨found', hfound, rfl⟩ := Option.map_eq_some_iff.mp hstep
          exact @ih child acc.2 found' hI hfound) hc hacc
      have hpid : ¬ Bad pid := fun hbad => by
        obtain ⟨b, hb, hbb⟩ := h pid hbad
        exact hgood b hb hbb
      refine ⟨hpid, fun a ha hm => ?_⟩
      rcases Std.TreeMap.mem_insert.mp hm with heq | hm
      · exact hpid ((compare_eq_iff_eq.mp heq).symm ▸ ha)
      · exact hcache a ha hm

/-- Processes of which each has another one below it keep the downward walks going. -/
theorem walks_endless {t : Tables} {Bad : Int → Prop} (h : ∀ a, Bad a → ∃ b ∈ t.childPids a, Bad b) {p : Int}
    (hp : Bad p) (fuel : Nat) : t.getDescendantPids fuel p = none ∧
      computeDescOne (buildDependencyGraph t) fuel p ∅ = none := by
  have hgraph : ∀ a, Bad a → ∃ b ∈ (buildDependencyGraph t).childrenOf a, Bad b := fun a ha => by
    obtain ⟨b, hb, hbad⟩ := h a ha
    obtain ⟨r, hr, rfl⟩ := List.mem_map.mp hb
    obtain ⟨hr, hppid⟩ := List.mem_filter.mp hr
    exact ⟨r.pid, (DependencyGraph.mem_childrenOf t a r.pid).mpr ⟨r, hr, of_decide_eq_true hppid, rfl⟩, hbad⟩
  obtain ⟨b, hb, hbad⟩ := h p hp
  refine ⟨walk_endless h fuel ⟨b, hb, hbad⟩, ?_⟩
  cases hf : computeDescOne (buildDependencyGraph t) fuel p ∅ with
  | none => rfl
  | some found => exact absurd hp (computeDescOne_avoids hgraph (fun a _ => Std.TreeMap.not_mem_emptyc) hf).1

end Bdtrace
