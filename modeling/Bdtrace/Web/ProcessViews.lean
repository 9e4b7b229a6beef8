import Bdtrace.General.FrameStacks
import Bdtrace.View.TreePrinting
import Bdtrace.Web.ProcessEndpoints
import Mathlib.Data.Finset.Card

/-! The process tree in the browser, which asks for the children of a process when its node is opened. Answers come
in any order, and callbacks run at once where nothing has to be asked for. -/
namespace Bdtrace
open Std (TreeMap)

/-- A node with the values that `buildTreeNode` captures. -/
structure TreeNode where
  pid : Int
  proc : ProcessJson
  depth : Nat
  parent : Option Nat

/-- The view. Nodes are named by their positions in the registry; `expanded` and `childUl` hold those whose closure has
the variable set, and `displayed` those whose list of children is not hidden. -/
structure ProcessView where
  procMap : TreeMap Int ProcessJson := ∅
  registry : List TreeNode := []
  expanded : Finset Nat := ∅
  childUl : Finset Nat := ∅
  displayed : Finset Nat := ∅
  /-- The answers that `api` keeps. -/
  cache : TreeMap Int (List ProcessJson) := ∅
  /-- The requests for children, each with the call of `expandAll` that waits for it. -/
  inFlight : List (Nat × Option Nat) := []
  /-- `pending` of each call of `expandAll`. -/
  pending : List Int := []

/-- A call that is not finished. -/
inductive Frame where
  /-- The callback that `doExpand` hands to `ensureChildren`. -/
  | loaded (i : Nat) (click : Option Nat)
  /-- The callback that `expandAll` hands to `expand`. -/
  | done (click : Option Nat)
  /-- The loop of `tryExpand`. -/
  | scan (click i : Nat)

namespace ProcessView

def buildTreeNode (depth : Nat) (parent : Option Nat) (s : ProcessView) (pid : Int) : ProcessView :=
  match s.procMap[pid]? with
  | none => s
  | some proc => { s with registry := s.registry ++ [⟨pid, proc, depth, parent⟩] }

/-- `buildProcessView` on the answer to `/api/processes?lazy=1`. -/
def opened (data : ProcessesAnswer) : ProcessView :=
  data.roots.foldl (buildTreeNode 0 none) { procMap := data.processes.foldl (fun m p => m.insert p.record.pid p) ∅ }

/-- The answer of `/api/processes/<pid>/children`, built below its node. -/
def addChildren (i : Nat) (node : TreeNode) (childProcs : List ProcessJson) (s : ProcessView) : ProcessView :=
  (childProcs.map (·.record.pid)).foldl (buildTreeNode (node.depth + 1) (some i))
    { s with procMap := childProcs.foldl (fun m p => m.insert p.record.pid p) s.procMap }

/-- `doExpand`, with the inlined `ensureChildren`. -/
def doExpand (i : Nat) (click : Option Nat) (s : ProcessView) : List Frame × ProcessView :=
  match s.registry[i]? with
  | none => ([], s)
  | some node =>
    if node.proc.hasChildren = false ∨ i ∈ s.expanded then ([.done click], s)
    else
      let s := { s with expanded := insert i s.expanded }
      if i ∈ s.childUl then ([.loaded i click], s)
      else
        let s := { s with childUl := insert i s.childUl, displayed := insert i s.displayed }
        match s.cache[node.pid]? with
        | some childProcs => ([.loaded i click], s.addChildren i node childProcs)
        | none => ([], { s with inFlight := s.inFlight ++ [(i, click)] })

def doCollapse (s : ProcessView) (i : Nat) : ProcessView :=
  match s.registry[i]? with
  | none => s
  | some node =>
    if node.proc.hasChildren = false ∨ i ∉ s.expanded then s
    else { s with expanded := s.expanded.erase i, displayed := s.displayed.erase i }

def collapseAll (s : ProcessView) : ProcessView := (List.range s.registry.length).reverse.foldl doCollapse s

/-- The next step of a call, with the calls that it makes. -/
def advance (s : ProcessView) : Frame → List Frame × ProcessView
  | .loaded i click => ([.done click], { s with displayed := insert i s.displayed })
  | .done none => ([], s)
  | .done (some k) =>
    let left := s.pending.getD k 0 - 1
    (if left = 0 then [.scan k 0] else [], { s with pending := s.pending.set k left })
  | .scan k i =>
    match s.registry[i]? with
    | none => ([], s)
    | some node =>
      if node.proc.hasChildren ∧ i ∉ s.expanded then
        let out := { s with pending := s.pending.set k (s.pending.getD k 0 + 1) }.doExpand i (some k)
        (out.1 ++ [.scan k (i + 1)], out.2)
      else ([.scan k (i + 1)], s)

/-- What happens in the browser. Requests are named by their place among those in flight. -/
inductive Act where
  | click (i : Nat)
  | expandAll
  | collapseAll
  | answer (j : Nat)
  | lose (j : Nat)
  deriving DecidableEq, Repr

/-- The handler of an event, up to the calls that remain. -/
def handle (t : Tables) (s : ProcessView) : Act → List Frame × ProcessView
  | .click i =>
    match s.registry[i]? with
    | none => ([], s)
    | some node =>
      if node.proc.hasChildren then if i ∈ s.expanded then ([], s.doCollapse i) else s.doExpand i none
      else ([], s)
  | .expandAll => ([.scan s.pending.length 0], { s with pending := s.pending ++ [0] })
  | .collapseAll => ([], s.collapseAll)
  | .answer j =>
    match s.inFlight[j]? with
    | none => ([], s)
    | some (i, click) =>
      let s := { s with inFlight := s.inFlight.eraseIdx j }
      match s.registry[i]? with
      | none => ([], s)
      | some node =>
        match handleProcessChildren t node.pid with
        -- the server's error is shown elsewhere, and no callback runs
        | none => ([], s)
        | some childProcs =>
          ([.loaded i click], { s with cache := s.cache.insert node.pid childProcs }.addChildren i node childProcs)
  | .lose j => ([], { s with inFlight := s.inFlight.eraseIdx j })

def step (t : Tables) (fuel : Nat) (s : ProcessView) (act : Act) : Option ProcessView :=
  FrameStacks.run advance fuel (s.handle t act).1 (s.handle t act).2

/-! ### What the operations do -/

private theorem getElem?_insertAll {procs : List ProcessJson} (hnd : (procs.map (·.record.pid)).Nodup)
    (m : TreeMap Int ProcessJson)
    {c : ProcessJson} (hc : c ∈ procs) :
    (procs.foldl (fun m p => m.insert p.record.pid p) m)[c.record.pid]? = some c := by
  induction procs using List.reverseRecOn with
  | nil => cases hc
  | append_singleton procs p ih =>
    rw [List.map_append, List.map_singleton] at hnd
    have hapart := List.disjoint_of_nodup_append hnd
    rw [List.foldl_append, List.foldl_cons, List.foldl_nil, Std.TreeMap.getElem?_insert]
    rcases List.mem_append.mp hc with hin | hin
    · have hne : p.record.pid ≠ c.record.pid := fun heq =>
        hapart (List.mem_map_of_mem hin) (List.mem_singleton.mpr heq.symm)
      rw [if_neg (by simpa using hne)]
      exact ih hnd.of_append_left hin
    · rw [List.mem_singleton.mp hin, if_pos (by simp)]

/-- Nodes whose processes are known are added in order. -/
private theorem foldl_buildTreeNode (depth : Nat) (parent : Option Nat) (procs : List ProcessJson) {s : ProcessView}
    (h : ∀ c ∈ procs, s.procMap[c.record.pid]? = some c) :
    (procs.map (·.record.pid)).foldl (buildTreeNode depth parent) s =
      { s with registry := s.registry ++ procs.map fun c => ⟨c.record.pid, c, depth, parent⟩ } := by
  induction procs generalizing s with
  | nil => simp
  | cons c procs ih =>
    have hbuilt : s.buildTreeNode depth parent c.record.pid =
        { s with registry := s.registry ++ [⟨c.record.pid, c, depth, parent⟩] } := by
      rw [buildTreeNode, h c List.mem_cons_self]
    rw [List.map_cons, List.foldl_cons, hbuilt]
    refine (ih fun d hd => ?_).trans ?_
    · exact h d (List.mem_cons_of_mem _ hd)
    · simp

theorem addChildren_eq {childProcs : List ProcessJson} (hnd : (childProcs.map (·.record.pid)).Nodup) (i : Nat)
    (node : TreeNode) (s : ProcessView) : ∃ procMap, s.addChildren i node childProcs =
      { s with
        procMap
        registry := s.registry ++ childProcs.map fun c => ⟨c.record.pid, c, node.depth + 1, some i⟩ } := by
  refine ⟨childProcs.foldl (fun m p => m.insert p.record.pid p) s.procMap, ?_⟩
  rw [addChildren, foldl_buildTreeNode]
  intro c hc
  exact getElem?_insertAll hnd s.procMap hc

theorem opened_eq {data : ProcessesAnswer} (hroots : data.roots = data.processes.map (·.record.pid))
    (hnd : (data.processes.map (·.record.pid)).Nodup) : ∃ procMap,
    opened data = { procMap, registry := data.processes.map fun c => ⟨c.record.pid, c, 0, none⟩ } := by
  refine ⟨data.processes.foldl (fun m p => m.insert p.record.pid p) ∅, ?_⟩
  rw [opened, hroots, foldl_buildTreeNode]
  · rfl
  · intro c hc
    exact getElem?_insertAll hnd ∅ hc

/-- The node is marked as expanded. -/
def opening (s : ProcessView) (i : Nat) : ProcessView := { s with expanded := insert i s.expanded }

/-- The node is marked as expanded and its children are asked for. -/
def asking (s : ProcessView) (i : Nat) (click : Option Nat) : ProcessView :=
  { s with
    expanded := insert i s.expanded
    childUl := insert i s.childUl
    displayed := insert i s.displayed
    inFlight := s.inFlight ++ [(i, click)] }

end ProcessView
end Bdtrace
