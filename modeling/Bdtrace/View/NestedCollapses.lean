import Bdtrace.View.ProcessTree

/-! Collapse names that match processes below each other. Only affected processes are hidden, so that an unaffected
one below another collapsed process is shown beside it. -/
namespace Bdtrace
open Std (TreeSet)
open Worklist

namespace DependencyGraph

/-- A process tree: the processes are filed under their pids, each has one parent at most, and none is below itself. -/
structure ChildForest (g : DependencyGraph) : Prop where
  keys : ∀ (p : Int) (r : ProcessRecord), g.procMap[p]? = some r → r.pid = p
  parent : ∀ p q c, c ∈ g.childrenOf p → c ∈ g.childrenOf q → p = q
  acyclic : ∀ p, ¬ g.Below p p

/-- A shown process stands for itself and for the processes in its list. -/
def StandsFor (res : RebuildResult) (p x : Int) : Prop := x = p ∨ x ∈ res.collapsedChildren.getD p []

/-- Every process is listed once, none below a collapsed one, and no affected process is stood for twice. -/
structure WorkOnce (g : DependencyGraph) (affected : TreeSet Int) (names : TreeSet Str) (res : RebuildResult) :
    Prop where
  once : (res.processes.map (·.pid)).Nodup
  apart : ∀ c ∈ res.processes.map (·.pid), ∀ p ∈ res.processes.map (·.pid), g.Collapsed names c → ¬ g.Below c p
  single : ∀ x ∈ affected, ∀ c ∈ res.processes.map (·.pid), ∀ d ∈ res.processes.map (·.pid),
    StandsFor res c x → StandsFor res d x → c = d

/-- A collapsed process below another one is affected, unless nothing below it is. -/
def NestedAffected (g : DependencyGraph) (affected : TreeSet Int) (names : TreeSet Str) : Prop :=
  ∀ c d, g.Collapsed names c → g.Collapsed names d → g.Below c d → (∃ x ∈ affected, g.Below d x) → d ∈ affected

section
variable {g : DependencyGraph} {affected : TreeSet Int} {names : TreeSet Str}

/-- Without a cycle of parents the rows give a process tree. -/
private theorem childForest_built {t : Tables} (hk : t.pids.Nodup) (h : t.Acyclic) :
    (buildDependencyGraph t).ChildForest :=
  ⟨fun p r hr => ((getElem?_procMap hk p r).mp hr).2, (isForest_built hk h).parent, (isForest_built hk h).acyclic⟩

/-- Of two processes above a third one, one is above the other. -/
theorem ChildForest.comparable (h : g.ChildForest) {c d x : Int} (hc : g.Below c x) (hd : g.Below d x) :
    c = d ∨ g.Below c d ∨ g.Below d c := by
  rcases Reaches.comparable h.parent hc.to_reflTransGen hd.to_reflTransGen with hcd | hdc
  · exact (Relation.reflTransGen_iff_eq_or_transGen.mp hcd).imp Eq.symm .inl
  · exact (Relation.reflTransGen_iff_eq_or_transGen.mp hdc).imp_right .inr

private theorem Shown.of_top {c x : Int} (hc : g.Collapsed names c) (hx : x ∈ affected) (hb : g.Below c x)
    (htop : ∀ d, g.Collapsed names d → ¬ g.Below d c) : g.Shown affected names c :=
  ⟨fun ⟨_, d, hd, hdc⟩ => htop d hd hdc, .inr ⟨hc, .inr ⟨x, hx, hb⟩⟩⟩

/-- What is shown below a collapsed process is an unaffected collapsed one. -/
theorem Shown.below {c p : Int} (h : g.Shown affected names p) (hc : g.Collapsed names c) (hb : g.Below c p) :
    p ∉ affected ∧ g.Collapsed names p ∧ ∃ x ∈ affected, g.Below p x := by
  obtain ⟨hhidden, hwhy⟩ := h
  have hout : p ∉ affected := fun hp => hhidden ⟨hp, c, hc, hb⟩
  rcases hwhy with ⟨hp, -⟩ | ⟨hp, hself | hbelow⟩
  · exact absurd hp hout
  · exact absurd hself hout
  · exact ⟨hout, hp, hbelow⟩

end

/-- On a process tree no work is done twice exactly when every collapse match that stands below another one
and above an affected process is itself affected. -/
theorem filterRebuildSet_once_iff (g : DependencyGraph) (hg : g.ChildForest) (affected : TreeSet Int)
    (haff : ∀ p ∈ affected, p ∈ g.procMap) (names : TreeSet Str) :
    ∃ n, ∀ fuel, n ≤ fuel → ∃ res, filterRebuildSet fuel g affected names = .ok res ∧
      (g.WorkOnce affected names res ↔ g.NestedAffected affected names) := by
  have hwf := wellFounded_childrenOf hg.acyclic
  obtain ⟨n, hn⟩ := filterRebuildSet_spec hg.keys hwf haff names
  refine ⟨n, fun fuel hfuel => ?_⟩
  obtain ⟨res, hres, honce, hshown, hkids⟩ := hn fuel hfuel
  refine ⟨res, hres, fun h c d hc hd hcd hx => ?_, fun h => ?_⟩
  · by_contra hout
    have hdshown : g.Shown affected names d := ⟨fun hhidden => hout hhidden.1, .inr ⟨hd, .inr hx⟩⟩
    obtain ⟨x, hx, hdx⟩ := hx
    obtain ⟨t, ht, htd, htop⟩ := topmost hwf hc hcd
    have htshown : g.Shown affected names t := .of_top ht hx (htd.trans hdx) htop
    exact h.apart t ((hshown t).mpr htshown) d ((hshown d).mpr hdshown) ht htd
  · have hapart : ∀ c p, g.Shown affected names p → g.Collapsed names c → ¬ g.Below c p := fun c p hp hc hb => by
      obtain ⟨hout, hcol, hx⟩ := hp.below hc hb
      exact hout (h c p hc hcol hb hx)
    refine ⟨honce, fun c _ p hp hc hb => hapart c p ((hshown p).mp hp) hc hb, fun x _ c hc d hd hcx hdx => ?_⟩
    have hc := (hshown c).mp hc
    have hd := (hshown d).mp hd
    simp only [StandsFor, hkids] at hcx hdx
    rcases hcx with rfl | ⟨hccol, -, hcx⟩ <;> rcases hdx with hxd | ⟨hdcol, -, hdx⟩
    · exact hxd
    · exact absurd hdx (hapart d x hc hdcol)
    · subst hxd
      exact absurd hcx (hapart c x hd hccol)
    · rcases hg.comparable hcx hdx with heq | hcd | hdc
      · exact heq
      · exact absurd hcd (hapart c d hd hccol)
      · exact absurd hdc (hapart d c hc hdcol)

end DependencyGraph

open DependencyGraph

/-- A compiler driver below `make`, and a compiler below the driver. -/
private def nestedTables : Tables :=
  { processes := [{ pid := 1, ppid := 0, cmdline := "make".toList }, { pid := 2, ppid := 1, cmdline := "g++".toList },
      { pid := 3, ppid := 2, cmdline := "cc1plus".toList }] }

private def makeAndDriver : TreeSet Str := (∅ : TreeSet Str).insert "make".toList |>.insert "g++".toList

private theorem mem_singleton_iff {p q : Int} : p ∈ (∅ : TreeSet Int).insert q ↔ p = q := by
  rw [Std.TreeSet.mem_insert, compare_eq_iff_eq, or_iff_left Std.TreeSet.not_mem_emptyc, eq_comm]

/-- Only the compiler is affected. With both names collapsed, the driver is shown below `make`, and the
compiler is in the lists of both. -/
theorem nested_collapse_twice : (buildDependencyGraph nestedTables).ChildForest ∧
    (∀ p ∈ (∅ : TreeSet Int).insert 3, p ∈ (buildDependencyGraph nestedTables).procMap) ∧
    ∃ res, filterRebuildSet 9 (buildDependencyGraph nestedTables) ((∅ : TreeSet Int).insert 3) makeAndDriver = .ok res ∧
      res.processes.map (·.pid) = [1, 2] ∧ res.collapsedChildren.getD 1 [] = [3] ∧
        res.collapsedChildren.getD 2 [] = [3] ∧
      ¬ (buildDependencyGraph nestedTables).WorkOnce ((∅ : TreeSet Int).insert 3) makeAndDriver res := by
  have hrun :
      (filterRebuildSet 9 (buildDependencyGraph nestedTables) ((∅ : TreeSet Int).insert 3) makeAndDriver).toOption.map
      (fun res => (res.processes.map (·.pid), res.collapsedChildren.getD 1 [], res.collapsedChildren.getD 2 [])) =
        some ([1, 2], [3], [3]) := by decide +kernel
  obtain ⟨res, hres, hval⟩ := Option.map_eq_some_iff.mp hrun
  obtain ⟨hprocs, hval⟩ := Prod.mk.inj hval
  obtain ⟨hone, htwo⟩ := Prod.mk.inj hval
  have htree := childForest_built (t := nestedTables) (by decide) (Tables.acyclic_of_rank Int.toNat (by decide))
  refine ⟨htree, fun p hp => ?_, res, ?_, hprocs, hone, htwo, fun h => ?_⟩
  · obtain rfl := mem_singleton_iff.mp hp
    decide
  · cases hf : filterRebuildSet 9 (buildDependencyGraph nestedTables) ((∅ : TreeSet Int).insert 3) makeAndDriver with
    | error e => simp [hf, Except.toOption] at hres
    | ok r => simpa [hf, Except.toOption] using hres
  · have heq := h.single 3 (mem_singleton_iff.mpr rfl) 1 (by simp [hprocs]) 2 (by simp [hprocs])
      (.inr (by simp [hone])) (.inr (by simp [htwo]))
    exact absurd heq (by decide)

/-- With only the driver collapsed the compiler is stood for once. -/
theorem single_collapse_once : ∃ n, ∀ fuel, n ≤ fuel → ∃ res,
    filterRebuildSet fuel (buildDependencyGraph nestedTables) ((∅ : TreeSet Int).insert 3) {"g++".toList} = .ok res ∧
      (buildDependencyGraph nestedTables).WorkOnce ((∅ : TreeSet Int).insert 3) {"g++".toList} res := by
  have htree : (buildDependencyGraph nestedTables).ChildForest :=
    childForest_built (by decide) (Tables.acyclic_of_rank Int.toNat (by decide))
  have hknown : ∀ p ∈ (∅ : TreeSet Int).insert 3, p ∈ (buildDependencyGraph nestedTables).procMap := fun p hp => by
    obtain rfl := mem_singleton_iff.mp hp
    decide
  have hdriver : ∀ c, (buildDependencyGraph nestedTables).Collapsed {"g++".toList} c → c = 2 := by
    rintro c ⟨r, hr, hname⟩
    obtain ⟨hmem, rfl⟩ := (getElem?_procMap (by decide) c r).mp hr
    have hrows : ∀ r ∈ nestedTables.processes, cmdName r.cmdline ∈ ({"g++".toList} : TreeSet Str) → r.pid = 2 := by
      decide +kernel
    exact hrows r hmem hname
  obtain ⟨n, hn⟩ := filterRebuildSet_once_iff (buildDependencyGraph nestedTables) htree
    ((∅ : TreeSet Int).insert 3) hknown {"g++".toList}
  refine ⟨n, fun fuel hfuel => ?_⟩
  obtain ⟨res, hres, hiff⟩ := hn fuel hfuel
  refine ⟨res, hres, hiff.mpr fun c d hc hd hcd _ => ?_⟩
  obtain rfl := hdriver c hc
  obtain rfl := hdriver d hd
  exact absurd hcd (htree.acyclic 2)

end Bdtrace
