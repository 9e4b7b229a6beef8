import Bdtrace.General.DepthFirst
import Bdtrace.View.DependencyGraph

/-! The tree of reverse dependencies: a depth-first search with a global visited set. -/
namespace Bdtrace
open Std (TreeMap TreeSet)
open DepthFirst

structure RdepsNode where
  file : Str := []
  viaPid : Int := 0
  children : List RdepsNode := []

/-- `node.children.push_back(child)`. -/
def RdepsNode.addChild (node child : RdepsNode) : RdepsNode := { node with children := node.children ++ [child] }

namespace DependencyGraph
variable (g : DependencyGraph)

/-- The pairs of a reader and one of its outputs, in the order of the two loops. -/
def hops (file : Str) : List (Int × Str) :=
  (g.fileToReaders.getD file ∅).toList.flatMap fun pid => (g.outputsOf pid).toList.map fun out => (pid, out)

def computeRdepsRecursive : Nat → Str → TreeSet Str → RdepsNode → RdepsNode × TreeSet Str
  | 0, file, visited, node => ({ node with file := file, viaPid := 0 }, visited)
  | depth + 1, file, visited, node =>
    (g.hops file).foldl (fun st hop =>
      if hop.2 ∈ st.2 then st
      else
        let sub := computeRdepsRecursive depth hop.2 (st.2.insert hop.2) { viaPid := hop.1 }
        (st.1.addChild sub.1, sub.2))
      ({ node with file := file, viaPid := 0 }, visited)

/-- A negative depth is treated as zero. -/
def computeRdeps (file : Str) (depth : Int) : RdepsNode :=
  (g.computeRdepsRecursive depth.toNat file ((∅ : TreeSet Str).insert file) {}).1

end DependencyGraph

mutual

/-- The files that occur in a tree, with repetition. -/
def RdepsNode.files : RdepsNode → List Str
  | ⟨file, _, children⟩ => file :: filesOf children

def filesOf : List RdepsNode → List Str
  | [] => []
  | n :: ns => n.files ++ filesOf ns

end

private theorem filesOf_append (ns ms : List RdepsNode) : filesOf (ns ++ ms) = filesOf ns ++ filesOf ms := by
  induction ns with
  | nil => rfl
  | cons n ns ih => rw [List.cons_append, filesOf, ih, filesOf, List.append_assoc]

private theorem addChild_files (node child : RdepsNode) : (node.addChild child).files = node.files ++ child.files := by
  cases node
  simp only [RdepsNode.addChild, RdepsNode.files, filesOf_append, filesOf, List.append_nil, List.cons_append]

namespace DependencyGraph
variable (g : DependencyGraph)

/-- A process reads `a` and outputs `b`. -/
def Hop (a b : Str) : Prop := ∃ pid ∈ g.fileToReaders.getD a ∅, b ∈ g.outputsOf pid

/-- Reachable from `start` by at most `n` hops. -/
def WithinHops (start : Str) : Nat → Str → Prop
  | 0, f => f = start
  | n + 1, f => WithinHops start n f ∨ ∃ a, WithinHops start n a ∧ g.Hop a f

def next (file : Str) : List Str := (g.hops file).map (·.2)

private theorem mem_next (a b : Str) : b ∈ g.next a ↔ g.Hop a b := by
  simp only [next, hops, List.mem_map, List.mem_flatMap, Std.TreeSet.mem_toList, Hop]
  constructor
  · rintro ⟨⟨p, f⟩, ⟨q, hq, f', hf', heq⟩, rfl⟩
    obtain ⟨rfl, rfl⟩ := Prod.mk.inj heq
    exact ⟨q, hq, hf'⟩
  · rintro ⟨p, hp, hb⟩
    exact ⟨(p, b), ⟨p, hp, b, hb, rfl⟩, rfl⟩

/-- The tree lists what the search finds, and marks it. -/
private theorem computeRdepsRecursive_files (depth : Nat) (file : Str) (visited : TreeSet Str) (seen : List Str)
    (node : RdepsNode)
    (h : ∀ f, f ∈ visited ↔ f ∈ seen) :
    (g.computeRdepsRecursive depth file visited node).1.files =
      file :: filesOf node.children ++ (search g.next depth file seen).map (target file) ∧
    ∀ f, f ∈ (g.computeRdepsRecursive depth file visited node).2 ↔
      f ∈ (search g.next depth file seen).map (target file) ++ seen := by
  induction depth generalizing file visited seen node with
  | zero =>
    refine ⟨?_, h⟩
    simp [computeRdepsRecursive, RdepsNode.files, search]
  | succ depth ih =>
    rw [computeRdepsRecursive, search, next]
    generalize hnode : ({ node with file := file, viaPid := 0 } : RdepsNode) = n
    have hfile : n.files = file :: filesOf node.children := by
      subst hnode
      rfl
    rw [← hfile]
    clear hfile hnode
    generalize g.hops file = hs
    induction hs generalizing n visited seen with
    | nil =>
      refine ⟨?_, h⟩
      simp [loop]
    | cons hop hs ihs =>
      rw [List.foldl_cons, List.map_cons, loop]
      by_cases hv : hop.2 ∈ visited
      · simp only [hv, if_true, (h hop.2).mp hv]
        exact ihs visited seen h n
      · have hs : hop.2 ∉ seen := fun hm => hv ((h hop.2).mpr hm)
        simp only [hv, if_false, hs]
        obtain ⟨hfiles, hmarked⟩ := ih hop.2 (visited.insert hop.2) (hop.2 :: seen) { viaPid := hop.1 } fun f => by
          rw [Std.TreeSet.mem_insert, Std.compare_eq_iff_eq, List.mem_cons, h f, eq_comm]
        generalize g.computeRdepsRecursive depth hop.2 (visited.insert hop.2) { viaPid := hop.1 } = sub
          at hfiles hmarked ⊢
        have hfound : sub.1.files = (through hop.2 (search g.next depth hop.2 (hop.2 :: seen))).map (target hop.2) := by
          rw [hfiles, through, List.map_cons, List.map_map]
          rfl
        have hmark : ∀ f, f ∈ sub.2 ↔
            f ∈ (through hop.2 (search g.next depth hop.2 (hop.2 :: seen))).map (target hop.2) ++ seen := by
          intro f
          rw [hmarked, ← hfound, hfiles]
          simp only [filesOf, List.cons_append, List.mem_append, List.mem_cons, or_left_comm, List.nil_append]
        obtain ⟨hrest, hall⟩ := ihs sub.2 _ hmark (n.addChild sub.1)
        refine ⟨?_, fun f => ?_⟩
        · rw [hrest, addChild_files, hfound, map_target_through file, List.append_assoc, List.map_append]
        · rw [hall, List.map_append, map_target_through file]
          simp only [List.mem_append]
          exact or_left_comm.trans or_assoc.symm

/-- Any path leads to a file within its length. -/
private theorem withinHops_target {start : Str} (p : List Str) :
    IsPath g.next start p → g.WithinHops start p.length (target start p) := by
  induction p using List.reverseRecOn with
  | nil => exact fun _ => rfl
  | append_singleton p x ih =>
    intro h
    rw [isPath_append] at h
    rw [List.length_append, target_append]
    exact .inr ⟨_, ih h.1, (g.mem_next _ _).mp h.2.1⟩

theorem WithinHops.mono {start f : Str} {m n : Nat} (hmn : m ≤ n) (h : g.WithinHops start m f) :
    g.WithinHops start n f := by
  induction hmn with
  | refl => exact h
  | step _ ih => exact .inl ih

/-- Every file within `depth` hops is at the end of a path that no longer path cuts off: before its
last file it meets none that a path of exactly `depth` hops reaches sooner. -/
def NoneCutOff (start : Str) (depth : Nat) : Prop :=
  ∀ f, g.WithinHops start depth f → ∃ p, IsPath g.next start p ∧ p.length ≤ depth ∧ (start :: p).Nodup ∧
    target start p = f ∧ Clear g.next depth start p

private theorem computeRdeps_files (start : Str) (depth : Nat) :
    (g.computeRdeps start depth).files = start :: (search g.next depth start [start]).map (target start) := by
  have h := (g.computeRdepsRecursive_files depth start ((∅ : TreeSet Str).insert start) [start] {} fun f => by
    rw [Std.TreeSet.mem_insert, Std.compare_eq_iff_eq, List.mem_singleton, eq_comm]
    simp).1
  rw [computeRdeps, Int.toNat_natCast, h]
  rfl

/-- No file occurs twice in the tree, and none that is too far away. -/
private theorem computeRdeps_sound (start : Str) (depth : Nat) : (g.computeRdeps start depth).files.Nodup ∧
    ∀ f ∈ (g.computeRdeps start depth).files, g.WithinHops start depth f := by
  obtain ⟨hfound, -⟩ := @found_search _ g.next _ depth start [start]
  rw [computeRdeps_files]
  refine ⟨List.nodup_cons.mpr ⟨fun hm => ?_, hfound.once⟩, fun f hf => ?_⟩
  · obtain ⟨p, hp, heq⟩ := List.mem_map.mp hm
    exact hfound.target_fresh hp (heq.symm ▸ List.mem_cons_self)
  · rcases List.mem_cons.mp hf with rfl | hf
    · exact WithinHops.mono g (Nat.zero_le depth) rfl
    · obtain ⟨p, hp, rfl⟩ := List.mem_map.mp hf
      obtain ⟨hpath, -, hlen⟩ := hfound.path p hp
      exact WithinHops.mono g hlen (g.withinHops_target p hpath)

/-- With no file cut off the tree has the files within `depth` hops, each once. -/
theorem computeRdeps_complete (start : Str) (depth : Nat) (h : g.NoneCutOff start depth) :
    (∀ f, f ∈ (g.computeRdeps start depth).files ↔ g.WithinHops start depth f) ∧
      (g.computeRdeps start depth).files.Nodup := by
  obtain ⟨hnd, hsound⟩ := g.computeRdeps_sound start depth
  refine ⟨fun f => ⟨hsound f, fun hf => ?_⟩, hnd⟩
  obtain ⟨p, hpath, hlen, hndp, rfl, hclear⟩ := h f hf
  rw [computeRdeps_files]
  rcases search_complete hpath hlen hndp hclear with rfl | ⟨q, hq, heq⟩
  · exact List.mem_cons_self
  · exact List.mem_cons_of_mem _ (List.mem_map.mpr ⟨q, hq, heq⟩)

/-- The source `s` is compiled to `a`, and `a` to `b`. -/
private def chainTables : Tables :=
  { processes := [{ pid := 1 }, { pid := 2 }]
    files := [⟨1, ['s']⟩, ⟨2, ['a']⟩, ⟨3, ['b']⟩]
    fileAccesses := [⟨1, 1, 1, 0, 3, 0⟩, ⟨2, 1, 2, 1, 4, 0⟩, ⟨3, 2, 2, 0, 3, 0⟩, ⟨4, 2, 3, 1, 4, 0⟩] }

private theorem chain_next : (buildDependencyGraph chainTables).next ['s'] = [['a']] ∧
    (buildDependencyGraph chainTables).next ['a'] = [['b']] := by decide

theorem chain_complete : (∀ f, f ∈ ((buildDependencyGraph chainTables).computeRdeps ['s'] 2).files ↔
      (buildDependencyGraph chainTables).WithinHops ['s'] 2 f) ∧
    ((buildDependencyGraph chainTables).computeRdeps ['s'] 2).files.Nodup := by
  apply computeRdeps_complete _ _ 2
  obtain ⟨hs, ha⟩ := chain_next
  have hab : Clear (buildDependencyGraph chainTables).next 2 ['s'] [['a'], ['b']] := by
    intro q x hq r _ _ _ _ hsooner
    have hlen := hq.length_le
    cases q with
    | nil => cases r <;> exact hsooner
    | cons y q =>
      obtain ⟨rfl, hq⟩ := List.cons_prefix_cons.mp hq
      cases q with
      | cons z q => simp at hlen
      | nil =>
        cases r with
        | nil => exact hsooner
        | cons w r =>
          rcases hsooner with h | ⟨-, h⟩
          · rw [hs] at h
            exact Nat.not_lt_zero _ h
          · cases r <;> exact h
  rintro f ((rfl | ⟨e, rfl, hf⟩) | ⟨e, rfl | ⟨e', rfl, he⟩, hf⟩)
  · exact ⟨[], trivial, by decide, by decide, rfl, hab.of_prefix List.nil_prefix⟩
  · rw [← mem_next, hs, List.mem_singleton] at hf
    subst hf
    exact ⟨[['a']],
      ⟨by rw [hs]; exact List.mem_cons_self, trivial⟩, by decide, by decide, rfl, hab.of_prefix ⟨[['b']], rfl⟩⟩
  · rw [← mem_next, hs, List.mem_singleton] at hf
    subst hf
    exact ⟨[['a']],
      ⟨by rw [hs]; exact List.mem_cons_self, trivial⟩, by decide, by decide, rfl, hab.of_prefix ⟨[['b']], rfl⟩⟩
  · rw [← mem_next, hs, List.mem_singleton] at he
    subst he
    rw [← mem_next, ha, List.mem_singleton] at hf
    subst hf
    exact ⟨[['a'], ['b']],
      ⟨by rw [hs]; exact List.mem_cons_self, by rw [ha]; exact List.mem_cons_self, trivial⟩, by decide,
      by decide, rfl, hab⟩

/-- One process makes `a` and `b` from `s`, another makes `b` from `a`, and a third makes `c` from `b`. -/
private def shortcutTables : Tables :=
  { processes := [{ pid := 1 }, { pid := 2 }, { pid := 3 }]
    files := [⟨1, ['s']⟩, ⟨2, ['a']⟩, ⟨3, ['b']⟩, ⟨4, ['c']⟩]
    fileAccesses := [⟨1, 1, 1, 0, 3, 0⟩, ⟨2, 1, 2, 1, 4, 0⟩, ⟨3, 1, 3, 1, 5, 0⟩, ⟨4, 2, 2, 0, 3, 0⟩, ⟨5, 2, 3, 1, 4, 0⟩,
      ⟨6, 3, 3, 0, 3, 0⟩, ⟨7, 3, 4, 1, 4, 0⟩] }

/-- `c` is two hops from `s`, but `b` is first met at depth two, through `a`. -/
theorem shortcut_cut_off : ¬ ∀ (g : DependencyGraph) (start : Str) (depth : Nat),
    (∀ f, f ∈ (g.computeRdeps start depth).files ↔ g.WithinHops start depth f) ∧
      (g.computeRdeps start depth).files.Nodup := by
  intro h
  have hhops : (buildDependencyGraph shortcutTables).WithinHops ['s'] 2 ['c'] :=
    .inr ⟨['b'], .inr ⟨['s'], rfl, 1, by decide, by decide⟩, 3, by decide, by decide⟩
  have hmem := ((h (buildDependencyGraph shortcutTables) ['s'] 2).1 ['c']).mpr hhops
  exact absurd hmem (by decide)

end DependencyGraph
end Bdtrace
