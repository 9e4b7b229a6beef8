import Bdtrace.Store.Tables
import Mathlib.Data.List.Sort
import Std.Data.TreeMap.Lemmas
import Std.Data.TreeSet.Lemmas

/-! The dependency graph that the viewers build from a trace. -/
namespace Bdtrace
open Std (TreeMap TreeSet)

def isInputMode (mode : Int) : Bool :=
  mode = FileAccessMode.read.code || mode = FileAccessMode.rdwr.code || mode = FileAccessMode.exec.code ||
    mode = FileAccessMode.stat.code || mode = FileAccessMode.access.code || mode = FileAccessMode.readlink.code

def isOutputMode (mode : Int) : Bool :=
  mode = FileAccessMode.write.code || mode = FileAccessMode.rdwr.code || mode = FileAccessMode.renameDst.code ||
    mode = FileAccessMode.linkDst.code || mode = FileAccessMode.symlinkLink.code ||
    mode = FileAccessMode.truncate.code || mode = FileAccessMode.mknod.code || mode = FileAccessMode.mkdir.code

structure DependencyGraph where
  fileToReaders : TreeMap Str (TreeSet Int) := ∅
  pidToOutputs : TreeMap Int (TreeSet Str) := ∅
  fileToWriters : TreeMap Str (TreeSet Int) := ∅
  procMap : TreeMap Int ProcessRecord := ∅
  pidChildren : TreeMap Int (List Int) := ∅

/-- `m[k].insert(a)` on a map of sets. -/
def insertInto {κ α : Type} [Ord κ] [Ord α] (m : TreeMap κ (TreeSet α)) (k : κ) (a : α) : TreeMap κ (TreeSet α) :=
  m.alter k fun s => some ((s.getD ∅).insert a)

namespace DependencyGraph
variable (g : DependencyGraph)

def childrenOf (pid : Int) : List Int := g.pidChildren.getD pid []

def ppidOf (pid : Int) : Option Int := g.procMap[pid]?.map (·.ppid)

/-- The files that a process outputs. -/
def outputsOf (pid : Int) : TreeSet Str := g.pidToOutputs.getD pid ∅

def addAccess (pid : Int) (filename : Str) (mode : Int) : DependencyGraph :=
  let g := if isInputMode mode then { g with fileToReaders := insertInto g.fileToReaders filename pid } else g
  if isOutputMode mode then
    { g with pidToOutputs := insertInto g.pidToOutputs pid filename
             fileToWriters := insertInto g.fileToWriters filename pid }
  else g

def addProcess (r : ProcessRecord) : DependencyGraph :=
  { g with procMap := g.procMap.insert r.pid r
           pidChildren := g.pidChildren.alter r.ppid fun children => some (children.getD [] ++ [r.pid]) }

/-- The processes that read any file. -/
def readsAny : TreeSet Int := g.fileToReaders.values.foldl (fun s readers => readers.foldl (fun s p => s.insert p) s) ∅

/-- A child that reads but has no outputs of its own takes those of its parent. -/
def propagate (readers : TreeSet Int) (outputs : TreeSet Str) (child : Int) : DependencyGraph :=
  if child ∈ g.pidToOutputs ∨ child ∉ readers then g
  else outputs.toList.foldl (fun g file =>
    { g with pidToOutputs := insertInto g.pidToOutputs child file
             fileToWriters := insertInto g.fileToWriters file child }) g

/-- The shell redirect fixup. -/
def redirectFixup : DependencyGraph :=
  let readers := g.readsAny
  g.pidChildren.toList.foldl (fun g entry =>
    match g.pidToOutputs[entry.1]? with
    | none => g
    | some outputs => entry.2.foldl (fun g child => g.propagate readers outputs child) g) g

end DependencyGraph

/-- `SELECT ... FROM processes ORDER BY start_time_us`. -/
def Tables.allProcesses (t : Tables) : List ProcessRecord :=
  t.processes.insertionSort fun a b => a.startTimeUs ≤ b.startTimeUs

def buildDependencyGraph (t : Tables) : DependencyGraph :=
  -- the join with `files` leaves out an access without its path
  let g := t.accesses.foldl (fun g a => match a.path with
    | none => g
    | some path => g.addAccess a.pid path a.mode) {}
  (t.allProcesses.foldl DependencyGraph.addProcess g).redirectFixup

namespace DependencyGraph

theorem nodup_toList {α : Type} [Ord α] [Std.TransOrd α] [Std.LawfulEqOrd α] (s : TreeSet α) : s.toList.Nodup :=
  s.distinct_toList.imp fun hne heq => hne (Std.compare_eq_iff_eq.mpr heq)

/-- The part of the graph that comes from the process rows. -/
def tree (g : DependencyGraph) : TreeMap Int ProcessRecord × TreeMap Int (List Int) := (g.procMap, g.pidChildren)

/-- A fold keeps what each step keeps. -/
theorem foldl_keeps {β γ : Type} (part : DependencyGraph → γ) (f : DependencyGraph → β → DependencyGraph)
    (hf : ∀ g b, part (f g b) = part g) (bs : List β) (g : DependencyGraph) : part (bs.foldl f g) = part g := by
  induction bs generalizing g with
  | nil => rfl
  | cons b bs ih => rw [List.foldl_cons, ih, hf]

private theorem addAccess_tree (g : DependencyGraph) (pid : Int) (filename : Str) (mode : Int) :
    (g.addAccess pid filename mode).tree = g.tree := by
  simp only [addAccess]
  split <;> split <;> rfl

private theorem propagate_tree (g : DependencyGraph) (readers : TreeSet Int) (outputs : TreeSet Str) (child : Int) :
    (g.propagate readers outputs child).tree = g.tree := by
  simp only [propagate]
  split
  · rfl
  · apply foldl_keeps tree
    intro g file
    rfl

theorem redirectFixup_tree (g : DependencyGraph) : g.redirectFixup.tree = g.tree := by
  apply foldl_keeps tree
  intro g entry
  split
  · rfl
  · exact foldl_keeps tree _ (fun g child => propagate_tree g _ _ child) _ _

private theorem tree_built (t : Tables) :
    (buildDependencyGraph t).tree = (t.allProcesses.foldl addProcess {}).tree := by
  have hrows : ∀ (rs : List ProcessRecord) (g g' : DependencyGraph), g.tree = g'.tree →
      (rs.foldl addProcess g).tree = (rs.foldl addProcess g').tree := fun rs => by
    induction rs with
    | nil => exact fun _ _ h => h
    | cons r rs ih =>
      intro g g' h
      apply ih
      obtain ⟨hp, hc⟩ := Prod.mk.inj h
      simp only [tree, addProcess, hp, hc]
  rw [buildDependencyGraph, redirectFixup_tree]
  apply hrows
  apply foldl_keeps tree
  intro g a
  split
  · rfl
  · exact addAccess_tree g _ _ _

private theorem foldl_addProcess (rs : List ProcessRecord) (g : DependencyGraph) (p : Int) :
    (rs.foldl addProcess g).childrenOf p = g.childrenOf p ++ (rs.filter fun r => r.ppid = p).map (·.pid) := by
  induction rs generalizing g with
  | nil => simp
  | cons r rs ih =>
    rw [List.foldl_cons, ih]
    by_cases h : r.ppid = p
    · subst h
      simp [childrenOf, addProcess, Std.TreeMap.getD_eq_getD_getElem?]
    · have hne : compare r.ppid p ≠ .eq := by simpa using h
      simp [childrenOf, addProcess, Std.TreeMap.getD_alter, hne, h]

private theorem foldl_procMap (rs : List ProcessRecord) (hnd : (rs.map (·.pid)).Nodup) (g : DependencyGraph) (p : Int) :
    (rs.foldl addProcess g).procMap[p]? = ((rs.find? fun r => r.pid = p).or g.procMap[p]?) := by
  induction rs generalizing g with
  | nil => simp
  | cons r rs ih =>
    rw [List.map_cons, List.nodup_cons] at hnd
    rw [List.foldl_cons, ih hnd.2]
    by_cases h : r.pid = p
    · subst h
      have hnone : rs.find? (fun x => x.pid = r.pid) = none := by
        rw [List.find?_eq_none]
        intro x hx heq
        exact hnd.1 (List.mem_map.mpr ⟨x, hx, by simpa using heq⟩)
      simp [addProcess, hnone]
    · have hne : compare r.pid p ≠ .eq := by simpa using h
      simp [addProcess, Std.TreeMap.getElem?_insert, hne, h]

theorem childrenOf_built (t : Tables) (p : Int) :
    (buildDependencyGraph t).childrenOf p = (t.allProcesses.filter fun r => r.ppid = p).map (·.pid) := by
  have hc := (Prod.mk.inj (tree_built t)).2
  have hnil : ({} : DependencyGraph).childrenOf p = [] := Std.TreeMap.getD_emptyc
  rw [childrenOf, hc, ← childrenOf, foldl_addProcess, hnil, List.nil_append]

/-- The children of a pid are the rows that name it as their parent. -/
theorem mem_childrenOf (t : Tables) (p c : Int) :
    c ∈ (buildDependencyGraph t).childrenOf p ↔ ∃ r ∈ t.processes, r.ppid = p ∧ r.pid = c := by
  rw [childrenOf_built]
  simp [Tables.allProcesses, and_assoc]

theorem nodup_childrenOf {t : Tables} (hk : t.pids.Nodup) (p : Int) :
    ((buildDependencyGraph t).childrenOf p).Nodup := by
  have hperm : t.allProcesses.Perm t.processes := List.perm_insertionSort _ _
  rw [childrenOf_built]
  exact ((hperm.map _).nodup_iff.mpr hk).sublist (List.filter_sublist.map _)

/-- With unique keys the graph's processes are the rows. -/
theorem getElem?_procMap {t : Tables} (hk : t.pids.Nodup) (p : Int) (r : ProcessRecord) :
    (buildDependencyGraph t).procMap[p]? = some r ↔ r ∈ t.processes ∧ r.pid = p := by
  have hp := (Prod.mk.inj (tree_built t)).1
  have hperm : t.allProcesses.Perm t.processes := List.perm_insertionSort _ _
  have hnd : (t.allProcesses.map (·.pid)).Nodup := (hperm.map _).nodup_iff.mpr hk
  have hnone : ({} : DependencyGraph).procMap[p]? = none := Std.TreeMap.getElem?_emptyc
  rw [hp, foldl_procMap _ hnd, hnone, Option.or_none]
  constructor
  · intro h
    have hpid : r.pid = p := by simpa using List.find?_some h
    exact ⟨hperm.mem_iff.mp (List.mem_of_find?_eq_some h), hpid⟩
  · rintro ⟨hr, rfl⟩
    have hmem := hperm.mem_iff.mpr hr
    obtain ⟨r', hr'⟩ := Option.isSome_iff_exists.mp
      (List.find?_isSome.mpr ⟨r, hmem, decide_eq_true rfl⟩ : (t.allProcesses.find? fun x => x.pid = r.pid).isSome)
    have heq : r'.pid = r.pid := by simpa using List.find?_some hr'
    rw [hr', List.inj_on_of_nodup_map hnd (List.mem_of_find?_eq_some hr') hmem heq]

end DependencyGraph
end Bdtrace
