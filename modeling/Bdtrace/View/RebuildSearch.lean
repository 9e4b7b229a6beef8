import Bdtrace.General.PrefixScan
import Bdtrace.View.DependencyGraph

/-! From changed paths to changed files, and from changed files to the processes that have to run again. -/
namespace Bdtrace
open Std (TreeMap TreeSet)

structure RebuildReason where
  file : Str
  /-- The process that outputs the file, or 0 for a changed file. -/
  sourcePid : Int
  deriving DecidableEq, Repr

/-- The local variables of `rebuild_bfs_reasons`. -/
structure RebuildSearch where
  affected : TreeSet Int := ∅
  worklist : List Int := []
  reasonMap : TreeMap Int (List RebuildReason) := ∅

def RebuildSearch.note (s : RebuildSearch) (reason : RebuildReason) (reader : Int) : RebuildSearch :=
  { affected := s.affected.insert reader
    worklist := if reader ∈ s.affected then s.worklist else s.worklist ++ [reader]
    reasonMap := s.reasonMap.alter reader fun reasons => some (reasons.getD [] ++ [reason]) }

namespace DependencyGraph
variable (g : DependencyGraph)

/-- The processes that read a file. -/
def readersOf (file : Str) : TreeSet Int := g.fileToReaders.getD file ∅

/-- The loop over the readers of one file. -/
def noteReaders (sourcePid : Int) (s : RebuildSearch) (file : Str) : RebuildSearch :=
  (g.readersOf file).toList.foldl (fun s reader => s.note ⟨file, sourcePid⟩ reader) s

def rebuildLoop : Nat → RebuildSearch → Option RebuildSearch
  | fuel, s =>
    match s.worklist, fuel with
    | [], _ => some s
    | _ :: _, 0 => none
    | pid :: worklist, fuel + 1 =>
      rebuildLoop fuel ((g.outputsOf pid).toList.foldl (g.noteReaders pid) { s with worklist := worklist })

def rebuildBfsReasons (fuel : Nat) (changed : TreeSet Str) : Option (TreeMap Int (List RebuildReason)) :=
  (g.rebuildLoop fuel (changed.toList.foldl (g.noteReaders 0) {})).map (·.reasonMap)

/-! ### Changed files -/

/-- What a path selects besides itself: `lower_bound` and the scan up to the first other name. -/
def filesBelow (dir : Str) : List Str :=
  (g.fileToReaders.keys.dropWhile fun k => compare k dir == .lt).takeWhile dir.isPrefixOf

/-- The path with a slash behind it, unless it ends in one. -/
def dirPrefix (arg : Str) : Str := if arg ≠ [] ∧ arg.getLast? ≠ some '/' then arg ++ ['/'] else arg

/-- One turn of the loop over the changed paths. -/
def addChanged (changed : TreeSet Str) (arg : Str) : TreeSet Str :=
  (g.filesBelow (dirPrefix arg)).foldl (fun s f => s.insert f)
    (if arg ∈ g.fileToReaders then changed.insert arg else changed)

/-- The changed files of `cmd_rebuild`. -/
def changedByArgs (args : List Str) : TreeSet Str := args.foldl g.addChanged ∅

/-- `f` is the path `a` or stands below it. -/
def Under (a f : Str) : Prop := f = a ∨ dirPrefix a <+: f

section
variable {g}

private theorem mem_filesBelow (dir f : Str) : f ∈ g.filesBelow dir ↔ f ∈ g.fileToReaders ∧ dir <+: f := by
  rw [filesBelow, PrefixScan.scan_eq_filter dir Std.TreeMap.ordered_keys, List.mem_filter, Std.TreeMap.mem_keys,
    List.isPrefixOf_iff_prefix]

theorem mem_foldl_insert {α : Type} [Ord α] [Std.TransOrd α] [Std.LawfulEqOrd α] (xs : List α) (s : TreeSet α) (a : α) :
    a ∈ xs.foldl (fun s x => s.insert x) s ↔ a ∈ xs ∨ a ∈ s := by
  induction xs generalizing s with
  | nil => simp
  | cons x xs ih =>
    rw [List.foldl_cons, ih, Std.TreeSet.mem_insert, Std.compare_eq_iff_eq, List.mem_cons, eq_comm]
    exact or_left_comm.trans or_assoc.symm

private theorem mem_addChanged (changed : TreeSet Str) (arg f : Str) :
    f ∈ g.addChanged changed arg ↔ f ∈ changed ∨ (f ∈ g.fileToReaders ∧ Under arg f) := by
  have hself : f ∈ (if arg ∈ g.fileToReaders then changed.insert arg else changed) ↔
      f ∈ changed ∨ (f ∈ g.fileToReaders ∧ f = arg) := by
    split
    · rename_i hin
      rw [Std.TreeSet.mem_insert, Std.compare_eq_iff_eq]
      constructor
      · rintro (rfl | h)
        · exact .inr ⟨hin, rfl⟩
        · exact .inl h
      · rintro (h | ⟨-, rfl⟩)
        · exact .inr h
        · exact .inl rfl
    · rename_i hin
      exact ⟨.inl, fun h => h.resolve_right fun ⟨hf, heq⟩ => hin (heq ▸ hf)⟩
  rw [addChanged, mem_foldl_insert, mem_filesBelow, hself, Under, and_or_left]
  exact or_left_comm.trans (or_congr_right or_comm)

theorem mem_foldl_addChanged (args : List Str) (changed : TreeSet Str) (f : Str) :
    f ∈ args.foldl g.addChanged changed ↔ f ∈ changed ∨ (f ∈ g.fileToReaders ∧ ∃ a ∈ args, Under a f) := by
  induction args generalizing changed with
  | nil => simp
  | cons a args ih =>
    rw [List.foldl_cons, ih, mem_addChanged, or_assoc, ← and_or_left]
    simp

/-- The changed files are the recorded ones under a given path. -/
theorem mem_changedByArgs (args : List Str) (f : Str) :
    f ∈ g.changedByArgs args ↔ f ∈ g.fileToReaders ∧ ∃ a ∈ args, Under a f := by
  simp [changedByArgs, mem_foldl_addChanged]

/-- The search looks only at which files changed. -/
theorem rebuildBfsReasons_congr {changed changed' : TreeSet Str} (h : ∀ f, f ∈ changed ↔ f ∈ changed') (fuel : Nat) :
    g.rebuildBfsReasons fuel changed = g.rebuildBfsReasons fuel changed' := by
  have hlist : changed.toList = changed'.toList := (Std.TreeSet.Equiv.of_forall_mem_iff h).toList_eq
  rw [rebuildBfsReasons, rebuildBfsReasons, hlist]

end
end DependencyGraph
end Bdtrace
