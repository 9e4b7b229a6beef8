import Bdtrace.View.RebuildClosure
import Bdtrace.View.ProcessTree

/-! Access rows may name processes that have no row of their own. The rebuild set looks one of them up when the leaf
filter leaves it. -/
namespace Bdtrace
open Std (TreeSet)
open Worklist StoppableLoops

/-- `cmd_rebuild` up to the processes that it lists. -/
def rebuildSet (fuel : Nat) (t : Tables) (changed : TreeSet Str) (names : TreeSet Str) :
    Except Abort RebuildResult := do
  let g := buildDependencyGraph t
  let reasons ← loopDone (g.rebuildBfsReasons fuel changed)
  filterRebuildSet fuel g (reasons.keys.foldl (fun s p => s.insert p) ∅) names

namespace Tables
variable (t : Tables)

/-- The outputs of a process, with those that it takes over. -/
def Writes (pid : Int) (file : Str) : Prop := t.Outputs pid file ∨ ∃ owner, t.Inherits owner pid ∧ t.Outputs owner file

/-- A process that reads a changed file, or what an affected process writes. -/
inductive Affected (changed : TreeSet Str) : Int → Prop
  | reader {pid : Int} {file : Str} (hfile : file ∈ changed) (hreads : t.Reads pid file) : Affected changed pid
  | output {writer pid : Int} {file : Str} (hwriter : Affected changed writer) (hfile : t.Writes writer file)
    (hreads : t.Reads pid file) : Affected changed pid

/-- An affected process without a row that outputs a file, and has no affected child. -/
def Stray (changed : TreeSet Str) (pid : Int) : Prop :=
  pid ∉ t.pids ∧ t.Affected changed pid ∧ (∃ file, t.Outputs pid file) ∧ ∀ child, t.Child pid child →
    ¬ t.Affected changed child

/-- A process to collapse stands on or above a cycle of parents. -/
def CollapsesCycle (names : TreeSet Str) : Prop :=
  ∃ r ∈ t.processes, cmdName r.cmdline ∈ names ∧
    ∃ p, Relation.ReflTransGen t.Child r.pid p ∧ Relation.TransGen t.Child p p

theorem Affected.reads {t : Tables} {changed : TreeSet Str} {pid : Int} (h : t.Affected changed pid) :
    ∃ file, t.Reads pid file := by
  cases h with
  | reader _ hreads => exact ⟨_, hreads⟩
  | output _ _ hreads => exact ⟨_, hreads⟩

/-- A reading child of a process that outputs writes something: its own outputs, or those it takes over. -/
private theorem writes_of_child {t : Tables} {parent child : Int} (hchild : t.Child parent child)
    (hout : ∃ file, t.Outputs parent file) (hread : ∃ file, t.Reads child file) : ∃ file, t.Writes child file := by
  by_cases hown : ∃ file, t.Outputs child file
  · obtain ⟨file, hfile⟩ := hown
    exact ⟨file, .inl hfile⟩
  · obtain ⟨file, hfile⟩ := hout
    exact ⟨file, .inr ⟨parent, .child hfile hchild ⟨hread, not_exists.mp hown⟩, hfile⟩⟩

end Tables

namespace DependencyGraph

section
variable {t : Tables}

/-- The explored processes are the affected ones of the table. -/
private theorem affected_iff (hk : t.pids.Nodup) {changed : TreeSet Str} {popped : List Int} {affected : TreeSet Int}
    (h : Exploration.Explored (buildDependencyGraph t).feeds
      ((buildDependencyGraph t).readersOfAny changed) popped affected)
    (p : Int) : p ∈ affected ↔ t.Affected changed p := by
  rw [h.seen, h.reached]
  constructor
  · rintro ⟨q, hq, hreach⟩
    induction hreach with
    | refl =>
      obtain ⟨f, hf, hread⟩ := (mem_readersOfAny changed q).mp hq
      exact .reader hf ((mem_readersOf t f q).mp hread)
    | tail _ hstep ih =>
      obtain ⟨f, hf, hread⟩ := (mem_feeds _ _).mp hstep
      exact .output ih ((mem_outputsOf hk f _).mp hf) ((mem_readersOf t f _).mp hread)
  · intro hp
    induction hp with
    | reader hfile hreads =>
      exact ⟨_, (mem_readersOfAny changed _).mpr ⟨_, hfile, (mem_readersOf t _ _).mpr hreads⟩, .refl⟩
    | output _ hfile hreads ih =>
      obtain ⟨q, hq, hreach⟩ := ih
      exact ⟨q, hq, hreach.tail ((mem_feeds _ _).mpr ⟨_, (mem_outputsOf hk _ _).mpr hfile,
        (mem_readersOf t _ _).mpr hreads⟩)⟩

/-- Of the affected processes without a row the strays are looked up. -/
private theorem shown_missing_iff (hk : t.pids.Nodup) {changed : TreeSet Str} {affected : TreeSet Int}
    (haff : ∀ p, p ∈ affected ↔ t.Affected changed p) (names : TreeSet Str) (p : Int) :
    (buildDependencyGraph t).Shown affected names p ∧ p ∉ (buildDependencyGraph t).procMap ↔ t.Stray changed p := by
  have htight := (treated_built hk).tight
  have hrow : ∀ q, t.Child q p → p ∈ t.pids := by
    rintro q ⟨r, hr, -, rfl⟩
    exact List.mem_map_of_mem hr
  rw [mem_procMap_iff hk]
  constructor
  · rintro ⟨⟨-, ⟨hp, -, hout, hleaf⟩ | ⟨⟨r, hr, -⟩, -⟩⟩, hmissing⟩
    · obtain ⟨f, hf⟩ := htight.keys p hout
      have hown : t.Outputs p f := ((mem_outputsOf hk f p).mp hf).resolve_right fun ⟨owner, hi, _⟩ => by
        obtain ⟨parent, hchild⟩ := hi.parent
        exact hmissing (hrow parent hchild)
      refine ⟨hmissing, (haff p).mp hp, ⟨f, hown⟩,
        fun c hc haffected => hleaf ⟨hp, hout, c, (haff c).mpr haffected, ?_, ?_⟩⟩
      · obtain ⟨f', hf'⟩ := Tables.writes_of_child hc ⟨f, hown⟩ haffected.reads
        exact (htight.mem_iff c).mpr ⟨f', (mem_outputsOf hk f' c).mpr hf'⟩
      · obtain ⟨r, hr, rfl, rfl⟩ := hc
        exact Option.map_eq_some_iff.mpr ⟨r, (getElem?_procMap hk _ r).mpr ⟨hr, rfl⟩, rfl⟩
    · obtain ⟨hmem, rfl⟩ := (getElem?_procMap hk p r).mp hr
      exact absurd (List.mem_map_of_mem hmem) hmissing
  · rintro ⟨hmissing, hp, ⟨f, hf⟩, hchildren⟩
    have hhidden : ¬ (buildDependencyGraph t).Hidden affected names p := by
      rintro ⟨-, c, -, hb⟩
      obtain ⟨q, -, hq⟩ := Relation.TransGen.tail'_iff.mp ((below_iff_child c p).mp hb)
      exact hmissing (hrow q hq)
    have hcollapsed : ¬ (buildDependencyGraph t).Collapsed names p := by
      rintro ⟨r, hr, -⟩
      obtain ⟨hmem, rfl⟩ := (getElem?_procMap hk p r).mp hr
      exact hmissing (List.mem_map_of_mem hmem)
    refine ⟨⟨hhidden, .inl ⟨(haff p).mpr hp, hcollapsed, ?_, ?_⟩⟩, hmissing⟩
    · exact (htight.mem_iff p).mpr ⟨f, (mem_outputsOf hk f p).mpr (.inl hf)⟩
    · rintro ⟨-, -, c, hc, -, hpp⟩
      obtain ⟨r, hr, rfl⟩ := Option.map_eq_some_iff.mp hpp
      obtain ⟨hmem, rfl⟩ := (getElem?_procMap hk c r).mp hr
      exact hchildren r.pid ⟨r, hmem, rfl, rfl⟩ ((haff r.pid).mp hc)

end

section
variable {g : DependencyGraph} {affected : TreeSet Int} {names : TreeSet Str}

private theorem mapM_procAt (l : List Int) :
    l.mapM g.procAt = if ∀ p ∈ l, p ∈ g.procMap then .ok (l.map fun p => g.procMap[p]?.getD {})
      else .error .missingProcess := by
  split
  · rename_i h
    exact mapM_ok fun p hp => procAt_ok (h p hp)
  · rename_i h
    obtain ⟨p, hp, hnot⟩ : ∃ p ∈ l, p ∉ g.procMap := by
      by_contra hall
      exact h fun p hp => by_contra fun hnot => hall ⟨p, hp, hnot⟩
    refine mapM_error (fun q _ d hd => ?_) hp ?_
    · simp only [procAt] at hd
      split at hd
      · cases hd
        rfl
      · cases hd
    · simp only [procAt, Std.TreeMap.getElem?_eq_none hnot]

/-- A loop that does not end stops the rest. -/
private theorem mapM_outOfFuel {α β : Type} {f : α → Option β} {l : List α} {a : α} (ha : a ∈ l) (hf : f a = none) :
    (l.mapM fun a => loopDone (f a)) = .error .outOfFuel := by
  refine mapM_error (fun b _ d hd => ?_) ha ?_
  · cases hb : f b with
    | none =>
      rw [hb] at hd
      cases hd
      rfl
    | some v =>
      rw [hb] at hd
      cases hd
  · rw [hf]
    rfl

/-- A missing process is looked up when the loops end and one is shown that is in no row. -/
private theorem filterRebuildSet_missing_iff (fuel : Nat) (g : DependencyGraph) (affected : TreeSet Int)
    (names : TreeSet Str) :
    filterRebuildSet fuel g affected names = .error .missingProcess ↔
      (∀ c ∈ g.collapsedPids names, ∃ l, walk g.childrenOf fuel [c] = some l) ∧
        ∃ p, g.Shown affected names p ∧ p ∉ g.procMap := by
  by_cases hwalk : ∀ c ∈ g.collapsedPids names, ∃ l, walk g.childrenOf fuel [c] = some l
  · obtain ⟨kids, flag, hkids, hflags, -, hhidden, hflag⟩ := @loops_spec g affected names fuel hwalk
    have hshown := @mem_leaves_tops g affected names _ flag hhidden hflag
    rw [filterRebuildSet_loops fuel kids flag hkids hflags, mapM_procAt, mapM_procAt, and_iff_right hwalk]
    simp only [← hshown, List.mem_append]
    split
    · rename_i hleaves
      split
      · rename_i htops
        refine iff_of_false (fun h => by cases h) ?_
        rintro ⟨p, hp | hp, hmissing⟩
        · exact hmissing (hleaves p hp)
        · exact hmissing (htops p hp)
      · rename_i htops
        refine iff_of_true rfl ?_
        push Not at htops
        obtain ⟨p, hp, hmissing⟩ := htops
        exact ⟨p, .inr hp, hmissing⟩
    · rename_i hleaves
      refine iff_of_true rfl ?_
      push Not at hleaves
      obtain ⟨p, hp, hmissing⟩ := hleaves
      exact ⟨p, .inl hp, hmissing⟩
  · refine iff_of_false (fun h => ?_) fun h => hwalk h.1
    push Not at hwalk
    obtain ⟨c, hc, hnone⟩ := hwalk
    have hloop : g.collapseLoop affected fuel [c] [] = none := by
      rw [collapseLoop_eq, Option.eq_none_iff_forall_ne_some.mpr hnone, Option.map_none]
    rw [filterRebuildSet, mapM_outOfFuel hc hloop] at h
    cases h

end
private theorem mem_keySet {reasons : Std.TreeMap Int (List RebuildReason)} (p : Int) :
    p ∈ reasons.keys.foldl (fun s p => s.insert p) (∅ : TreeSet Int) ↔ p ∈ reasons := by
  rw [mem_foldl_insert, Std.TreeMap.mem_keys]
  exact or_iff_left Std.TreeSet.not_mem_emptyc

/-- The collapse loops end for some fuel, unless a process to collapse stands on or above a cycle. -/
private theorem collapses_end {t : Tables} (hk : t.pids.Nodup) {names : TreeSet Str} (h : ¬ t.CollapsesCycle names) :
    ∃ n, ∀ fuel, n ≤ fuel → ∀ c ∈ (buildDependencyGraph t).collapsedPids names,
      ∃ l, walk (buildDependencyGraph t).childrenOf fuel [c] = some l := by
  have hends : ∀ c ∈ (buildDependencyGraph t).collapsedPids names,
      ∃ n, ∀ fuel, n ≤ fuel → ∃ l, walk (buildDependencyGraph t).childrenOf fuel [c] = some l := fun c hc => by
    apply walk_total_of_acyclic (t.processes.map (·.ppid)).toFinset
    · intro a b hb
      obtain ⟨r, hr, rfl, -⟩ := (mem_childrenOf t a b).mp hb
      exact List.mem_toFinset.mpr (List.mem_map_of_mem hr)
    · intro a ha x hreach hcycle
      obtain rfl := List.mem_singleton.mp ha
      obtain ⟨r, hr, hname⟩ := (mem_collapsedPids a).mp hc
      obtain ⟨hmem, rfl⟩ := (getElem?_procMap hk a r).mp hr
      exact h ⟨r, hmem, hname, x, (reaches_iff_child _ _).mp hreach, (below_iff_child x x).mp hcycle⟩
  generalize (buildDependencyGraph t).collapsedPids names = cs at hends ⊢
  induction cs with
  | nil => exact ⟨0, fun _ _ _ hc => (by cases hc)⟩
  | cons c cs ih =>
    obtain ⟨n, hn⟩ := hends c List.mem_cons_self
    obtain ⟨m, hm⟩ := ih fun d hd => hends d (List.mem_cons_of_mem _ hd)
    refine ⟨max n m, fun fuel hfuel => List.forall_mem_cons.mpr ⟨?_, ?_⟩⟩
    · exact hn fuel ((le_max_left n m).trans hfuel)
    · exact hm fuel ((le_max_right n m).trans hfuel)

end DependencyGraph

open DependencyGraph

/-- The rebuild set is computed without looking up a missing process exactly when no affected process without a row
outputs a file and has no affected child, or when the collapse loops never end. -/
theorem rebuildSet_present_iff (t : Tables) (hk : t.pids.Nodup) (changed : TreeSet Str) (names : TreeSet Str) :
    (∀ fuel, rebuildSet fuel t changed names ≠ .error .missingProcess) ↔
      t.CollapsesCycle names ∨ ∀ p, ¬ t.Stray changed p := by
  obtain ⟨n, popped, affected, reasons, hrun, hdone, hkeys, -⟩ := searches_end (buildDependencyGraph t) changed
  have hset : ∀ p, p ∈ reasons.keys.foldl (fun s p => s.insert p) (∅ : TreeSet Int) ↔
      t.Affected changed p := fun p => by
    rw [mem_keySet, hkeys, affected_iff hk hdone]
  have hrebuild : ∀ fuel, (buildDependencyGraph t).rebuildBfsReasons fuel changed = some reasons →
      (rebuildSet fuel t changed names = .error .missingProcess ↔
        (∀ c ∈ (buildDependencyGraph t).collapsedPids names,
          ∃ l, walk (buildDependencyGraph t).childrenOf fuel [c] = some l) ∧ ∃ p, t.Stray changed p) :=
            fun fuel hfuel => by
    simp only [rebuildSet, hfuel, loopDone, bind, Except.bind, filterRebuildSet_missing_iff, shown_missing_iff hk hset]
  constructor
  · intro h
    by_cases hcycle : t.CollapsesCycle names
    · exact .inl hcycle
    · obtain ⟨m, hm⟩ := collapses_end hk hcycle
      refine .inr fun p hp => h (max n m) ((hrebuild _ (hrun _ (le_max_left n m)).2).mpr
        ⟨hm _ (le_max_right n m), p, hp⟩)
  · intro h fuel hmissing
    cases hr : (buildDependencyGraph t).rebuildBfsReasons fuel changed with
    | none =>
      simp only [rebuildSet, hr, loopDone, bind, Except.bind] at hmissing
      cases hmissing
    | some reasons' =>
      have hsame := (rebuildBfsReasons_mono (le_max_left fuel n) hr).symm.trans (hrun _ (le_max_right fuel n)).2
      obtain rfl := Option.some.inj hsame
      obtain ⟨hwalk, p, hp⟩ := (hrebuild fuel hr).mp hmissing
      rcases h with ⟨r, hr, hname, q, hreach, hcycle⟩ | hnone
      · have hc : r.pid ∈ (buildDependencyGraph t).collapsedPids names :=
          (mem_collapsedPids r.pid).mpr ⟨r, (getElem?_procMap hk r.pid r).mpr ⟨hr, rfl⟩, hname⟩
        obtain ⟨l, hl⟩ := hwalk r.pid hc
        rw [walk_cycle ((reaches_iff_child r.pid q).mpr hreach) ((below_iff_child q q).mpr hcycle) fuel
          (List.mem_singleton_self r.pid)] at hl
        cases hl
      · exact hnone p hp

/-- Process 5 reads `a` and writes `b`, and has no row. -/
private def strayTables : Tables :=
  { processes := [{ pid := 1, ppid := 0, cmdline := "make".toList }]
    files := [⟨1, "a".toList⟩, ⟨2, "b".toList⟩]
    fileAccesses := [⟨1, 5, 1, 0, 3, 0⟩, ⟨2, 5, 2, 1, 3, 0⟩] }

/-- When `a` changes, the rebuild set looks up process 5, which is not there. -/
theorem stray_dereferenced : strayTables.pids.Nodup ∧
    rebuildSet 9 strayTables {"a".toList} ∅ = .error .missingProcess := by
  refine ⟨by decide, ?_⟩
  have hrun : (match rebuildSet 9 strayTables {"a".toList} ∅ with
      | .error .missingProcess => true
      | _ => false) = true := by decide +kernel
  split at hrun
  · assumption
  · cases hrun

/-- The same with a child 6 that reads `a` too. -/
private def adoptedTables : Tables :=
  { processes := [{ pid := 6, ppid := 5, cmdline := "cc".toList }]
    files := strayTables.files
    fileAccesses := strayTables.fileAccesses ++ [⟨3, 6, 1, 0, 3, 0⟩] }

/-- The affected child keeps process 5 from being looked up. -/
theorem adopted_present : adoptedTables.Affected {"a".toList} 5 ∧
    ∀ fuel, rebuildSet fuel adoptedTables {"a".toList} ∅ ≠ .error .missingProcess := by
  have hchanged : "a".toList ∈ ({"a".toList} : TreeSet Str) := by decide
  refine ⟨.reader hchanged ⟨⟨5, some "a".toList, 0, 3, 0⟩, by decide, rfl, rfl, rfl⟩, ?_⟩
  refine (rebuildSet_present_iff adoptedTables (by decide) {"a".toList} ∅).mpr (.inr ?_)
  rintro p ⟨-, -, ⟨f, a, ha, rfl, -, hmode⟩, hchildren⟩
  have hwriter : ∀ a ∈ adoptedTables.accesses, isOutputMode a.mode = true → a.pid = 5 := by decide
  refine hchildren 6 ⟨{ pid := 6, ppid := 5, cmdline := "cc".toList }, List.mem_singleton_self _, ?_, rfl⟩ ?_
  · exact (hwriter a ha hmode).symm
  · exact .reader hchanged ⟨⟨6, some "a".toList, 0, 3, 0⟩, by decide, rfl, rfl, rfl⟩

end Bdtrace
