import Bdtrace.General.Tours
import Bdtrace.View.RebuildSet
import Bdtrace.View.RedirectFixup

/-! The process tree of a stored trace, as the graph's maps hold it. -/
namespace Bdtrace
open Worklist (Reaches Child)

/-- No process is its own ancestor along the `ppid` links. -/
def Tables.Acyclic (t : Tables) : Prop := ∀ p, ¬ Relation.TransGen t.Child p p

/-- Parents of a smaller rank rule cycles out. -/
theorem Tables.acyclic_of_rank {t : Tables} (rank : Int → Nat) (h : ∀ r ∈ t.processes, rank r.ppid < rank r.pid) :
    t.Acyclic := by
  apply Worklist.acyclic_of_rank rank
  rintro p q ⟨r, hr, rfl, rfl⟩
  exact h r hr

namespace DependencyGraph
variable {t : Tables}

theorem childrenOf_rel (t : Tables) : (fun a b => b ∈ (buildDependencyGraph t).childrenOf a) = t.Child := by
  funext a b
  exact propext (mem_childrenOf t a b)

theorem below_iff_child (p q : Int) : (buildDependencyGraph t).Below p q ↔ Relation.TransGen t.Child p q := by
  rw [Below, childrenOf_rel]

theorem reaches_iff_child (p q : Int) : Reaches (buildDependencyGraph t).childrenOf p q ↔
    Relation.ReflTransGen t.Child p q := by
  rw [Reaches, childrenOf_rel]

theorem mem_procMap_iff (hk : t.pids.Nodup) (p : Int) : p ∈ (buildDependencyGraph t).procMap ↔ p ∈ t.pids := by
  rw [Std.TreeMap.mem_iff_isSome_getElem?, Option.isSome_iff_exists]
  simp only [getElem?_procMap hk, Tables.pids, List.mem_map]

theorem isForest_built (hk : t.pids.Nodup) (h : t.Acyclic) : Tours.IsForest (buildDependencyGraph t).childrenOf := by
  refine ⟨wellFounded_childrenOf fun p hp => h p ((below_iff_child p p).mp hp), nodup_childrenOf hk,
    fun p q c hp hq => ?_⟩
  exact Tables.child_unique t hk ((mem_childrenOf t p c).mp hp) ((mem_childrenOf t q c).mp hq)

/-- A row stands below a row whose parent has none. -/
theorem exists_root (h : t.Acyclic) {p : Int} (hp : p ∈ t.pids) :
    ∃ r ∈ t.processes, r.ppid ∉ t.pids ∧ Relation.ReflTransGen t.Child r.pid p := by
  have hup : WellFounded fun b a => t.Child b a := by
    refine Worklist.wellFounded_of_acyclic t.pids.toFinset (fun a b hab => ?_) fun a ha => h a ?_
    · obtain ⟨r, hr, -, rfl⟩ := hab
      exact List.mem_toFinset.mpr (List.mem_map_of_mem hr)
    · exact Relation.transGen_swap.mp ha
  induction p using hup.induction with
  | _ p ih =>
    obtain ⟨r, hr, rfl⟩ := List.mem_map.mp hp
    by_cases hpp : r.ppid ∈ t.pids
    · obtain ⟨root, hroot, hout, hreach⟩ := ih r.ppid ⟨r, hr, rfl, rfl⟩ hpp
      exact ⟨root, hroot, hout, hreach.tail ⟨r, hr, rfl, rfl⟩⟩
    · exact ⟨r, hr, hpp, .refl⟩

/-- A row whose parent has none is below no other row. -/
theorem root_top (hk : t.pids.Nodup) {a : Int} (ha : a ∈ t.pids) {r : ProcessRecord} (hr : r ∈ t.processes)
    (hout : r.ppid ∉ t.pids) (hreach : Relation.ReflTransGen t.Child a r.pid) : a = r.pid := by
  rcases hreach.cases_tail with heq | ⟨c, hac, hchild⟩
  · exact heq.symm
  · have hc : c ∈ t.pids := by
      rcases hac.cases_tail with rfl | ⟨d, -, s, hs, -, rfl⟩
      · exact ha
      · exact List.mem_map_of_mem hs
    obtain rfl := Tables.child_unique t hk hchild ⟨r, hr, rfl, rfl⟩
    exact absurd hc hout

end DependencyGraph
end Bdtrace
