import Bdtrace.View.ProcessTree
import Bdtrace.View.TreeWalks
import Mathlib.Algebra.BigOperators.Group.Finset.Basic
import Mathlib.Algebra.BigOperators.Group.List.Basic
import Mathlib.Algebra.Ring.Int.Defs
import Mathlib.Order.Bounds.Basic

/-! The aggregates over a process and its descendants, computed with one cache for all processes. -/
namespace Bdtrace
open Std (TreeMap)
open Worklist (Reaches Child weight weight_lt_of_child)

/-- The calls of `compute_desc_one` for a list of processes with one shared cache, as `get_dep_graph` makes them. -/
def computeDescAll (g : DependencyGraph) (fuel : Nat) (pids : List Int) (cache : StatsCache) : Option StatsCache :=
  pids.foldlM (fun cache pid => (computeDescOne g fuel pid cache).map (·.2)) cache

namespace DependencyGraph

/-- The child lists are the inverse of the parent links, and no process is below itself. -/
structure Linked (g : DependencyGraph) : Prop where
  inverse : ∀ p c, c ∈ g.childrenOf p ↔ g.ppidOf c = some p
  nodup : ∀ p, (g.childrenOf p).Nodup
  acyclic : ∀ p, ¬ g.Below p p

variable (g : DependencyGraph)

/-- The record of a process. -/
def recordOf (p : Int) : ProcessRecord := g.procMap[p]?.getD {}

/-- The sums and the maximum over a process and its descendants, each taken once. -/
def Aggregates (p : Int) (ds : DescendantStats) : Prop :=
  ∃ members : Finset Int, (∀ x, x ∈ members ↔ x = p ∨ g.Below p x) ∧
    ds.descFileCount = ∑ x ∈ members, (g.recordOf x).fileCount ∧
    ds.descFailCount = ∑ x ∈ members, (g.recordOf x).failCount ∧
    ds.descCpuUs = ∑ x ∈ members, ((g.recordOf x).userTimeUs + (g.recordOf x).sysTimeUs) ∧
    ds.descIoBytes = ∑ x ∈ members, ((g.recordOf x).ioReadBytes + (g.recordOf x).ioWriteBytes) ∧
    IsGreatest {v | ∃ x ∈ members, (g.recordOf x).peakRssKb = v} ds.descPeakRssKb

/-- The same over a list of processes. -/
structure SumsOver (pids : List Int) (ds : DescendantStats) : Prop where
  fileCount : ds.descFileCount = (pids.map fun x => (g.recordOf x).fileCount).sum
  failCount : ds.descFailCount = (pids.map fun x => (g.recordOf x).failCount).sum
  cpuUs : ds.descCpuUs = (pids.map fun x => (g.recordOf x).userTimeUs + (g.recordOf x).sysTimeUs).sum
  ioBytes : ds.descIoBytes = (pids.map fun x => (g.recordOf x).ioReadBytes + (g.recordOf x).ioWriteBytes).sum
  peakRssKb : IsGreatest {v | ∃ x ∈ pids, (g.recordOf x).peakRssKb = v} ds.descPeakRssKb

section
variable {g}

private theorem Linked.isForest (h : g.Linked) : Tours.IsForest g.childrenOf := by
  refine ⟨wellFounded_childrenOf h.acyclic, h.nodup, fun p q c hp hq => ?_⟩
  exact Option.some.inj (((h.inverse p c).mp hp).symm.trans ((h.inverse q c).mp hq))

private theorem sumsOver_own (p : Int) : g.SumsOver [p] (DescendantStats.own (g.recordOf p)) := by
  refine ⟨?_, ?_, ?_, ?_, ?_⟩ <;> simp [DescendantStats.own]

theorem SumsOver.add {pids pids' : List Int} {ds ds' : DescendantStats} (h : g.SumsOver pids ds)
    (h' : g.SumsOver pids' ds') :
    g.SumsOver (pids ++ pids') (ds.add ds') := by
  refine ⟨?_, ?_, ?_, ?_, ?_, ?_⟩
  · rw [List.map_append, List.sum_append, ← h.fileCount, ← h'.fileCount]
    rfl
  · rw [List.map_append, List.sum_append, ← h.failCount, ← h'.failCount]
    rfl
  · rw [List.map_append, List.sum_append, ← h.cpuUs, ← h'.cpuUs]
    rfl
  · rw [List.map_append, List.sum_append, ← h.ioBytes, ← h'.ioBytes]
    rfl
  · obtain ⟨x, hx, hxv⟩ := h.peakRssKb.1
    obtain ⟨y, hy, hyv⟩ := h'.peakRssKb.1
    rw [DescendantStats.add]
    dsimp only
    split
    · exact ⟨y, List.mem_append_right _ hy, hyv⟩
    · exact ⟨x, List.mem_append_left _ hx, hxv⟩
  · rintro v ⟨x, hx, rfl⟩
    rw [DescendantStats.add]
    dsimp only
    rcases List.mem_append.mp hx with hx | hx
    · have hle := h.peakRssKb.2 ⟨x, hx, rfl⟩
      split <;> omega
    · have hle := h'.peakRssKb.2 ⟨x, hx, rfl⟩
      split <;> omega

private theorem own_recordOf (p : Int) : (g.procMap[p]?.map DescendantStats.own).getD {} =
    DescendantStats.own (g.recordOf p) := by
  rw [recordOf]
  cases g.procMap[p]? <;> rfl

/-- What the recursion keeps of the cache: an entry is the sum over a subtree. -/
def CacheExact (hwf : WellFounded (Child g.childrenOf)) (cache : StatsCache) : Prop :=
  ∀ p ds, cache[p]? = some ds → g.SumsOver (Tours.subtree hwf p) ds

/-- What a call that returns has computed, and what it has made of the cache. -/
structure Computed (hwf : WellFounded (Child g.childrenOf)) (p : Int) (cache : StatsCache)
    (found : DescendantStats × StatsCache) : Prop where
  exact : g.SumsOver (Tours.subtree hwf p) found.1
  kept : CacheExact hwf found.2
  stored : p ∈ found.2
  grown : ∀ q ∈ cache, q ∈ found.2

/-- The loop over the children adds their subtrees one after the other. -/
private theorem foldChildren_exact {hwf : WellFounded (Child g.childrenOf)}
    {call : Int → StatsCache → Option (DescendantStats × StatsCache)}
    (hcall : ∀ c cache found, CacheExact hwf cache → call c cache = some found → Computed hwf c cache found)
    (children : List Int) {before : List Int} {acc found : DescendantStats × StatsCache}
    (hsum : g.SumsOver before acc.1)
    (hcache : CacheExact hwf acc.2)
    (h : children.foldlM (fun (acc : DescendantStats × StatsCache) child =>
      (call child acc.2).map fun found => (acc.1.add found.1, found.2)) acc = some found) :
    g.SumsOver (before ++ children.flatMap (Tours.subtree hwf)) found.1 ∧ CacheExact hwf found.2 ∧
      ∀ q ∈ acc.2, q ∈ found.2 := by
  induction children generalizing before acc with
  | nil =>
    obtain rfl := Option.some.inj h
    exact ⟨by rwa [List.flatMap_nil, List.append_nil], hcache, fun q hq => hq⟩
  | cons c children ih =>
    rw [List.foldlM_cons] at h
    obtain ⟨acc', hacc', hrest⟩ := Option.bind_eq_some_iff.mp h
    obtain ⟨called, hcalled, rfl⟩ := Option.map_eq_some_iff.mp hacc'
    have hc := hcall c acc.2 called hcache hcalled
    obtain ⟨hall, hcache', hgrown⟩ := @ih _ (acc.1.add called.1, called.2) (hsum.add hc.exact) hc.kept hrest
    refine ⟨?_, hcache', fun q hq => hgrown q (hc.grown q hq)⟩
    rwa [List.flatMap_cons, ← List.append_assoc]

private theorem computeDescOne_exact {hwf : WellFounded (Child g.childrenOf)} {fuel : Nat} {p : Int}
    {cache : StatsCache}
    {found : DescendantStats × StatsCache} (hcache : CacheExact hwf cache)
    (h : computeDescOne g fuel p cache = some found) : Computed hwf p cache found := by
  induction fuel generalizing p cache found with
  | zero => cases h
  | succ fuel ih =>
    rw [computeDescOne] at h
    split at h
    · rename_i ds hds
      obtain rfl := Option.some.inj h
      exact ⟨hcache p ds hds, hcache, Std.TreeMap.mem_iff_isSome_getElem?.mpr (by rw [hds]; rfl), fun q hq => hq⟩
    · obtain ⟨acc, hacc, rfl⟩ := Option.map_eq_some_iff.mp h
      rw [own_recordOf] at hacc
      obtain ⟨hsum, hcache', hgrown⟩ := foldChildren_exact (fun c cache found hc hf => ih hc hf) (g.childrenOf p)
        (sumsOver_own p) hcache hacc
      have hexact : g.SumsOver (Tours.subtree hwf p) acc.1 := by rwa [Tours.subtree_eq]
      refine ⟨hexact, fun q ds hq => ?_, Std.TreeMap.mem_insert_self, fun q hq => ?_⟩
      · by_cases heq : p = q
        · subst heq
          rw [Std.TreeMap.getElem?_insert_self] at hq
          exact Option.some.inj hq ▸ hexact
        · have hne : compare p q ≠ .eq := by simpa using heq
          rw [Std.TreeMap.getElem?_insert, if_neg hne] at hq
          exact hcache' q ds hq
      · exact Std.TreeMap.mem_insert.mpr (.inr (hgrown q hq))

/-- On a forest the list of a subtree counts everything once. -/
private theorem SumsOver.aggregates (h : g.Linked) {p : Int} {ds : DescendantStats}
    (hds : g.SumsOver (Tours.subtree h.isForest.wellFounded p) ds) : g.Aggregates p ds := by
  classical
  have hnd := h.isForest.nodup_subtree p
  refine ⟨(Tours.subtree h.isForest.wellFounded p).toFinset, fun x => ?_, ?_, ?_, ?_, ?_, ?_⟩
  · rw [List.mem_toFinset, Tours.mem_subtree, Reaches, Relation.reflTransGen_iff_eq_or_transGen]
    rfl
  · rw [hds.fileCount, List.sum_toFinset _ hnd]
  · rw [hds.failCount, List.sum_toFinset _ hnd]
  · rw [hds.cpuUs, List.sum_toFinset _ hnd]
  · rw [hds.ioBytes, List.sum_toFinset _ hnd]
  · simp only [List.mem_toFinset]
    exact hds.peakRssKb

end

/-- With child lists that are the inverse of acyclic parent links, the calls for any processes in any order end, and
leave in the cache the exact aggregates of each. -/
theorem computeDescAll_exact (g : DependencyGraph) (h : g.Linked) (pids : List Int) :
    ∃ n, ∀ fuel, n ≤ fuel → ∃ cache, computeDescAll g fuel pids ∅ = some cache ∧
      ∀ p ∈ pids, ∃ ds, cache[p]? = some ds ∧ g.Aggregates p ds := by
  have hwf := h.isForest.wellFounded
  refine ⟨(pids.map (weight hwf)).sum, fun fuel hfuel => ?_⟩
  have hall : ∀ pids' : List Int, (∀ p ∈ pids', p ∈ pids) → ∀ cache, CacheExact hwf cache →
      ∃ cache', computeDescAll g fuel pids' cache = some cache' ∧ CacheExact hwf cache' ∧ (∀ p ∈ pids', p ∈ cache') ∧
        ∀ q ∈ cache, q ∈ cache' := fun pids' => by
    induction pids' with
    | nil => exact fun _ cache hc => ⟨cache, rfl, hc, fun p hp => (by cases hp), fun q hq => hq⟩
    | cons p pids' ih =>
      intro hin cache hc
      have hle : weight hwf p ≤ fuel :=
        (List.le_sum_of_mem (List.mem_map_of_mem (hin p List.mem_cons_self))).trans hfuel
      obtain ⟨found, hfound⟩ := Option.isSome_iff_exists.mp (computeDescOne_isSome hwf hle cache)
      have hp := computeDescOne_exact hc hfound
      obtain ⟨cache', hcache', hexact, hstored, hgrown⟩ :=
        ih (fun q hq => hin q (List.mem_cons_of_mem _ hq)) found.2 hp.kept
      refine ⟨cache', ?_, hexact, List.forall_mem_cons.mpr ⟨hgrown p hp.stored, hstored⟩,
        fun q hq => hgrown q (hp.grown q hq)⟩
      rw [computeDescAll, List.foldlM_cons, hfound]
      exact hcache'
  have hempty : CacheExact hwf ∅ := fun p ds hds => by
    rw [Std.TreeMap.getElem?_emptyc] at hds
    cases hds
  obtain ⟨cache, hcache, hexact, hstored, -⟩ := hall pids (fun _ hp => hp) ∅ hempty
  refine ⟨cache, hcache, fun p hp => ?_⟩
  obtain ⟨ds, hds⟩ := Option.isSome_iff_exists.mp (Std.TreeMap.mem_iff_isSome_getElem?.mp (hstored p hp))
  exact ⟨ds, hds, SumsOver.aggregates h (hexact p ds hds)⟩

/-- The graph of a trace without cycles of parents is linked so. -/
theorem linked_built {t : Tables} (hk : t.pids.Nodup) (h : t.Acyclic) : (buildDependencyGraph t).Linked := by
  refine ⟨fun p c => ?_, nodup_childrenOf hk, (isForest_built hk h).acyclic⟩
  rw [mem_childrenOf, ppidOf, Option.map_eq_some_iff]
  constructor
  · rintro ⟨r, hr, rfl, rfl⟩
    exact ⟨r, (getElem?_procMap hk r.pid r).mpr ⟨hr, rfl⟩, rfl⟩
  · rintro ⟨r, hr, rfl⟩
    obtain ⟨hmem, hpid⟩ := (getElem?_procMap hk c r).mp hr
    exact ⟨r, hmem, rfl, hpid⟩

private def familyTables : Tables :=
  { processes := [{ pid := 1, ppid := 0, fileCount := 2, peakRssKb := 7 },
      { pid := 2, ppid := 1, fileCount := 3, peakRssKb := 9 },
      { pid := 3, ppid := 2, fileCount := 4, peakRssKb := 8 }] }

/-- The aggregates of a family in the order 2, 1, 3. -/
theorem family_aggregates : ∃ n, ∀ fuel, n ≤ fuel → ∃ cache,
    computeDescAll (buildDependencyGraph familyTables) fuel [2, 1, 3] ∅ = some cache ∧
      ∀ p ∈ [2, 1, 3], ∃ ds, cache[p]? = some ds ∧ (buildDependencyGraph familyTables).Aggregates p ds :=
  computeDescAll_exact (buildDependencyGraph familyTables)
    (linked_built (by decide) (Tables.acyclic_of_rank Int.toNat (by decide))) [2, 1, 3]

example : ((computeDescAll (buildDependencyGraph familyTables) 4 [2, 1, 3] ∅).bind (·[(1 : Int)]?)).map
    (fun ds => (ds.descFileCount, ds.descPeakRssKb)) = some (9, 9) := by decide +kernel

end DependencyGraph
end Bdtrace
