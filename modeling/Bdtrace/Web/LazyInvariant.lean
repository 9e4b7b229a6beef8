import Bdtrace.Web.ProcessViews

/-! What every operation of the process tree in the browser keeps. -/
namespace Bdtrace
open Std (TreeMap)
namespace ProcessView

/-- Every node stands for another process, below the node of its parent; a node's children are asked for once, and are
there only when the answer is. -/
structure Inv (t : Tables) (s : ProcessView) : Prop where
  once : (s.registry.map (·.pid)).Nodup
  known : ∀ node ∈ s.registry, t.Rooted node.pid ∧ (node.proc.hasChildren = true ↔ ∃ c, t.Child node.pid c)
  top : ∀ node ∈ s.registry, node.parent = none → node.depth = 0 ∧ ∃ r ∈ t.processes, r.pid = node.pid ∧ r.ppid ∉ t.pids
  placed : ∀ node ∈ s.registry, ∀ i, node.parent = some i →
    i ∈ s.childUl ∧ ∃ up, s.registry[i]? = some up ∧ t.Child up.pid node.pid ∧ node.depth = up.depth + 1
  lists : ∀ i ∈ s.childUl, ∃ node, s.registry[i]? = some node ∧ node.proc.hasChildren = true
  expanded : s.expanded ⊆ s.childUl
  flying : (s.inFlight.map (·.1)).Nodup
  waiting : ∀ i ∈ s.inFlight.map (·.1), i ∈ s.childUl ∧ ∀ node ∈ s.registry, node.parent ≠ some i
  cached : ∀ p ∈ s.cache, ∃ i ∈ s.childUl, ∃ node, s.registry[i]? = some node ∧ node.pid = p

section Steps
variable {t : Tables} {s : ProcessView}

/-- Two places of one process are the same. -/
private theorem Inv.place_unique (h : s.Inv t) {i j : Nat} {a b : TreeNode} (hi : s.registry[i]? = some a)
    (hj : s.registry[j]? = some b) (hpid : a.pid = b.pid) : i = j := by
  have hlen := (List.getElem?_eq_some_iff.mp hi).1
  have hi' : (s.registry.map (·.pid))[i]? = some b.pid := by rw [List.getElem?_map, hi, Option.map_some, hpid]
  have hj' : (s.registry.map (·.pid))[j]? = some b.pid := by rw [List.getElem?_map, hj, Option.map_some]
  exact (List.getElem?_inj (by rwa [List.length_map]) h.once).mp (hi'.trans hj'.symm)

/-- A node that can be expanded has its list already, or its children are asked for: they are in no answer so far. -/
theorem Inv.doExpand_cases (h : s.Inv t) {i : Nat} {node : TreeNode} (hi : s.registry[i]? = some node)
    (hkids : node.proc.hasChildren = true) (hexp : i ∉ s.expanded) (click : Option Nat) :
    (i ∈ s.childUl ∧ s.doExpand i click = ([.loaded i click], s.opening i)) ∨
      (i ∉ s.childUl ∧ s.doExpand i click = ([], s.asking i click)) := by
  have hgo : ¬ (node.proc.hasChildren = false ∨ i ∈ s.expanded) := by simp [hkids, hexp]
  by_cases hlist : i ∈ s.childUl
  · refine .inl ⟨hlist, ?_⟩
    simp only [doExpand, hi, if_neg hgo, if_pos hlist]
    rfl
  · refine .inr ⟨hlist, ?_⟩
    have hnew : s.cache[node.pid]? = none := by
      apply Std.TreeMap.getElem?_eq_none
      intro hcached
      obtain ⟨j, hj, other, hother, hpid⟩ := h.cached node.pid hcached
      exact hlist (h.place_unique hi hother hpid.symm ▸ hj)
    simp only [doExpand, hi, if_neg hgo, if_neg hlist, hnew]
    rfl

theorem Inv.of_opening (h : s.Inv t) {i : Nat} (hi : i ∈ s.childUl) : (s.opening i).Inv t :=
  { h with expanded := Finset.insert_subset hi h.expanded }

theorem Inv.of_asking (h : s.Inv t) {i : Nat} {node : TreeNode} (hi : s.registry[i]? = some node)
    (hkids : node.proc.hasChildren = true) (hnew : i ∉ s.childUl) (click : Option Nat) : (s.asking i click).Inv t where
  once := h.once
  known := h.known
  top := h.top
  placed other hother j hj := ⟨Finset.mem_insert_of_mem (h.placed other hother j hj).1, (h.placed other hother j hj).2⟩
  lists j hj := by
    rcases Finset.mem_insert.mp hj with rfl | hj
    · exact ⟨node, hi, hkids⟩
    · exact h.lists j hj
  expanded := Finset.insert_subset_insert i h.expanded
  flying := by
    show ((s.inFlight ++ [(i, click)]).map (·.1)).Nodup
    rw [List.map_append, List.map_singleton, List.nodup_append]
    refine ⟨h.flying, List.nodup_singleton i, fun j hj k hk heq => hnew ?_⟩
    obtain rfl : k = i := List.mem_singleton.mp hk
    exact heq ▸ (h.waiting j hj).1
  waiting j hj := by
    have hsplit : j ∈ s.inFlight.map (·.1) ∨ j = i := by
      simpa [asking, or_comm, eq_comm] using hj
    rcases hsplit with hj | rfl
    · exact ⟨Finset.mem_insert_of_mem (h.waiting j hj).1, (h.waiting j hj).2⟩
    · exact ⟨Finset.mem_insert_self j _, fun other hother hup => hnew (h.placed other hother j hup).1⟩
  cached p hp := by
    obtain ⟨j, hj, hrest⟩ := h.cached p hp
    exact ⟨j, Finset.mem_insert_of_mem hj, hrest⟩

theorem Inv.of_collapse (h : s.Inv t) (i : Nat) : (s.doCollapse i).Inv t := by
  rw [doCollapse]
  split
  · exact h
  · split
    · exact h
    · exact { h with expanded := (Finset.erase_subset i _).trans h.expanded }

theorem Inv.of_drop (h : s.Inv t) (j : Nat) : ({ s with inFlight := s.inFlight.eraseIdx j } : ProcessView).Inv t :=
  { h with
    flying := h.flying.sublist ((List.eraseIdx_sublist _ j).map _)
    waiting := fun i hi => h.waiting i (((List.eraseIdx_sublist _ j).map _).subset hi) }

private theorem mem_children {p : Int} {r : ProcessRecord} : r ∈ t.children p ↔ r ∈ t.processes ∧ r.ppid = p := by
  rw [Tables.children, List.mem_filter, mem_allProcesses, decide_eq_true_eq]

theorem hasChildren_processJson (r : ProcessRecord) :
    (t.processJson r).hasChildren = true ↔ ∃ c, t.Child r.pid c := by
  simp only [Tables.processJson, Tables.pidsWithChildren, List.mem_dedup, List.mem_map, decide_eq_true_eq]
  constructor
  · rintro ⟨c, hc, heq⟩
    exact ⟨c.pid, c, hc, heq, rfl⟩
  · rintro ⟨p, c, hc, heq, -⟩
    exact ⟨c, hc, heq⟩

/-- The nodes that an answer adds. -/
def childNodes (t : Tables) (i : Nat) (node : TreeNode) : List TreeNode :=
  ((t.children node.pid).map t.processJson).map fun c => ⟨c.record.pid, c, node.depth + 1, some i⟩

theorem mem_childNodes {i : Nat} {node new : TreeNode} : new ∈ childNodes t i node ↔
    ∃ r ∈ t.processes, r.ppid = node.pid ∧ new = ⟨r.pid, t.processJson r, node.depth + 1, some i⟩ := by
  rw [childNodes, List.map_map, List.mem_map]
  simp only [mem_children, and_assoc, Function.comp_apply, @eq_comm _ new]
  rfl

private theorem pids_childNodes (i : Nat) (node : TreeNode) :
    (childNodes t i node).map (·.pid) = (t.children node.pid).map (·.pid) := by
  rw [childNodes, List.map_map, List.map_map]
  rfl

/-- The children that an answer brings have no node yet. -/
private theorem Inv.children_new (h : s.Inv t) (hk : t.pids.Nodup) {i : Nat} {node : TreeNode}
    (hi : s.registry[i]? = some node)
    (hnone : ∀ other ∈ s.registry, other.parent ≠ some i) : ∀ c, t.Child node.pid c → c ∉ s.registry.map (·.pid) := by
  intro c hc hin
  obtain ⟨other, hother, rfl⟩ := List.mem_map.mp hin
  cases hup : other.parent with
  | none =>
    obtain ⟨-, r, hr, hpid, hout⟩ := h.top other hother hup
    have hnode := (h.known node (List.mem_of_getElem? hi)).1.mem_pids
    have heq := Tables.child_unique t hk hc ⟨r, hr, rfl, hpid⟩
    exact hout (heq ▸ hnode)
  | some k =>
    obtain ⟨-, up, hk', hchild, -⟩ := h.placed other hother k hup
    have hsame := h.place_unique hi hk' (Tables.child_unique t hk hc hchild)
    exact hnone other hother (hsame ▸ hup)

/-- A node waits for one answer at a time. -/
private theorem Inv.answered_gone (h : s.Inv t) {i j : Nat} {click : Option Nat}
    (hj : s.inFlight[j]? = some (i, click)) :
    i ∉ (s.inFlight.eraseIdx j).map (·.1) := by
  intro hin
  obtain ⟨e, he, rfl⟩ := List.mem_map.mp hin
  obtain ⟨k, hne, hk⟩ := List.mem_eraseIdx_iff_getElem?.mp he
  have hlen := (List.getElem?_eq_some_iff.mp hk).1
  have hsame : (s.inFlight.map (·.1))[k]? = (s.inFlight.map (·.1))[j]? := by
    rw [List.getElem?_map, List.getElem?_map, hk, hj]
    rfl
  exact hne ((List.getElem?_inj (by rwa [List.length_map]) h.flying).mp hsame)

theorem Inv.of_answer (h : s.Inv t) (hk : t.pids.Nodup) {i j : Nat} {click : Option Nat} {node : TreeNode}
    (hj : s.inFlight[j]? = some (i, click)) (hi : s.registry[i]? = some node) (procMap : TreeMap Int ProcessJson)
    (childProcs : List ProcessJson) :
    ({ s with
      inFlight := s.inFlight.eraseIdx j
      cache := s.cache.insert node.pid childProcs
      procMap
      registry := s.registry ++ childNodes t i node } : ProcessView).Inv t := by
  have hwait := h.waiting i (List.mem_map_of_mem (List.mem_of_getElem? hj))
  have hold : ∀ {k : Nat} {other : TreeNode}, s.registry[k]? = some other →
      (s.registry ++ childNodes t i node)[k]? = some other := fun hother => by
    rw [List.getElem?_append_left (List.getElem?_eq_some_iff.mp hother).1, hother]
  have hdrop := h.of_drop j
  have hgone := h.answered_gone hj
  refine ⟨?_, ?_, ?_, ?_, ?_, h.expanded, hdrop.flying, ?_, ?_⟩
  · show ((s.registry ++ childNodes t i node).map (·.pid)).Nodup
    rw [List.map_append, List.nodup_append]
    refine ⟨h.once, ?_, fun p hp q hq heq => ?_⟩
    · rw [pids_childNodes]
      exact (allProcesses_nodup hk).sublist (List.filter_sublist.map _)
    · obtain ⟨new, hnew, rfl⟩ := List.mem_map.mp hq
      obtain ⟨r, hr, hup, rfl⟩ := mem_childNodes.mp hnew
      subst heq
      exact h.children_new hk hi hwait.2 r.pid ⟨r, hr, hup, rfl⟩ hp
  · intro other hother
    rcases List.mem_append.mp hother with hin | hin
    · exact h.known other hin
    · obtain ⟨r, hr, hup, rfl⟩ := mem_childNodes.mp hin
      exact ⟨(h.known node (List.mem_of_getElem? hi)).1.tail ⟨r, hr, hup, rfl⟩, hasChildren_processJson r⟩
  · intro other hother hnone
    rcases List.mem_append.mp hother with hin | hin
    · exact h.top other hin hnone
    · obtain ⟨r, -, -, rfl⟩ := mem_childNodes.mp hin
      cases hnone
  · intro other hother k hup
    rcases List.mem_append.mp hother with hin | hin
    · obtain ⟨hlist, up, hk', hrest⟩ := h.placed other hin k hup
      exact ⟨hlist, up, hold hk', hrest⟩
    · obtain ⟨r, hr, hparent, rfl⟩ := mem_childNodes.mp hin
      obtain rfl := Option.some.inj hup
      exact ⟨hwait.1, node, hold hi, ⟨r, hr, hparent, rfl⟩, rfl⟩
  · intro k hlist
    obtain ⟨other, hother, hkids⟩ := h.lists k hlist
    exact ⟨other, hold hother, hkids⟩
  · intro k hin
    obtain ⟨hlist, hnone⟩ := hdrop.waiting k hin
    refine ⟨hlist, fun other hother hup => ?_⟩
    rcases List.mem_append.mp hother with hold | hnew
    · exact hnone other hold hup
    · obtain ⟨r, -, -, rfl⟩ := mem_childNodes.mp hnew
      obtain rfl := Option.some.inj hup
      exact hgone hin
  · intro p hp
    rcases Std.TreeMap.mem_insert.mp hp with heq | hp
    · exact ⟨i, hwait.1, node, hold hi, compare_eq_iff_eq.mp heq⟩
    · obtain ⟨k, hlist, other, hother, hpid⟩ := h.cached p hp
      exact ⟨k, hlist, other, hold hother, hpid⟩

end Steps
end ProcessView
end Bdtrace
