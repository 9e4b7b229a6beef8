import Bdtrace.Web.LazyCalls

/-! The events of the process tree in the browser: clicks, answers and lost answers. -/
namespace Bdtrace
open Std (TreeMap)
namespace ProcessView
section Steps
variable {t : Tables} {s s₀ : ProcessView} {rest : List Frame}

/-- What a node asks for is in flight or there. -/
structure Loads (t : Tables) (s : ProcessView) : Prop where
  roots : ∀ r ∈ t.processes, r.ppid ∉ t.pids → r.pid ∈ s.registry.map (·.pid)
  asked : ∀ i node, s.registry[i]? = some node → i ∈ s.childUl →
    i ∈ s.inFlight.map (·.1) ∨ ∀ c, t.Child node.pid c → c ∈ s.registry.map (·.pid)

theorem Loads.of_working {frames : List Frame} (h : s₀.Loads t) (hw : Working t s₀ frames s) : s.Loads t where
  roots r hr hout := hw.registry ▸ h.roots r hr hout
  asked i node hi hlist := by
    rw [hw.registry] at hi
    rcases hw.asked i hlist with hold | hnew
    · rcases h.asked i node hi hold with hfly | hall
      · exact .inl ((hw.still.map _).subset hfly)
      · exact .inr (hw.registry ▸ hall)
    · exact .inl hnew

/-- When all that can be expanded was, and no answer is missing, the nodes are those below the roots. -/
theorem Loads.complete (h : s.Loads t) (hfly : s.inFlight = [])
    (hall : ∀ i node, s.registry[i]? = some node → node.proc.hasChildren = true → i ∈ s.childUl) (hinv : s.Inv t) :
    ∀ p, p ∈ s.registry.map (·.pid) ↔ t.Rooted p := by
  intro p
  constructor
  · intro hp
    obtain ⟨node, hnode, rfl⟩ := List.mem_map.mp hp
    exact (hinv.known node hnode).1
  · rintro ⟨root, hroot, hout, hreach⟩
    induction hreach with
    | refl => exact h.roots root hroot hout
    | @tail q c hq hc ih =>
      obtain ⟨node, hnode, rfl⟩ := List.mem_map.mp ih
      obtain ⟨i, hi⟩ := List.mem_iff_getElem?.mp hnode
      have hlist := hall i node hi ((hinv.known node hnode).2.mpr ⟨c, hc⟩)
      rcases h.asked i node hi hlist with hin | hkids
      · rw [hfly] at hin
        cases hin
      · exact hkids c hc

/-- An answer brings all children of its node. -/
theorem Loads.of_answer (h : s.Loads t) (hinv : s.Inv t) {i j : Nat} {click : Option Nat} {node : TreeNode}
    (hj : s.inFlight[j]? = some (i, click)) (hi : s.registry[i]? = some node) (procMap : TreeMap Int ProcessJson)
    (childProcs : List ProcessJson) :
    ({ s with
      inFlight := s.inFlight.eraseIdx j
      cache := s.cache.insert node.pid childProcs
      procMap
      registry := s.registry ++ childNodes t i node } : ProcessView).Loads t := by
  have hgrown : ∀ p ∈ s.registry.map (·.pid), p ∈ (s.registry ++ childNodes t i node).map (·.pid) := fun p hp => by
    rw [List.map_append]
    exact List.mem_append_left _ hp
  refine ⟨fun r hr hout => hgrown _ (h.roots r hr hout), fun k other hk hlist => ?_⟩
  obtain ⟨old, hold, -⟩ := hinv.lists k hlist
  obtain rfl : old = other := by
    rw [List.getElem?_append_left (List.getElem?_eq_some_iff.mp hold).1, hold] at hk
    exact Option.some.inj hk
  by_cases hsame : k = i
  · subst hsame
    obtain rfl := Option.some.inj (hold.symm.trans hi)
    right
    rintro c ⟨r, hr, hup, rfl⟩
    rw [List.map_append]
    exact List.mem_append_right _ (List.mem_map_of_mem (mem_childNodes.mpr ⟨r, hr, hup, rfl⟩))
  · rcases h.asked k old hold hlist with hin | hall
    · left
      obtain ⟨e, he, rfl⟩ := List.mem_map.mp hin
      obtain ⟨m, hm⟩ := List.mem_iff_getElem?.mp he
      refine List.mem_map_of_mem (List.mem_eraseIdx_iff_getElem?.mpr ⟨m, fun heq => hsame ?_, hm⟩)
      subst heq
      rw [Option.some.inj (hm.symm.trans hj)]
    · exact .inr fun c hc => hgrown c (hall c hc)

/-- What the handler of an event does before it expands anything. -/
def arrival (t : Tables) (s : ProcessView) : Act → ProcessView
  | .click i => if i ∈ s.expanded then s.doCollapse i else s
  | .expandAll => { s with pending := s.pending ++ [0] }
  | .collapseAll => s.collapseAll
  | .answer j => (s.handle t (.answer j)).2
  | .lose j => { s with inFlight := s.inFlight.eraseIdx j }

private theorem doCollapse_fields (s : ProcessView) (i : Nat) :
    ∃ expanded displayed, s.doCollapse i = { s with expanded, displayed } := by
  rw [doCollapse]
  split
  · exact ⟨_, _, rfl⟩
  · split <;> exact ⟨_, _, rfl⟩

private theorem displayed_doCollapse (h : s.expanded ⊆ s.displayed) (i : Nat) :
    (s.doCollapse i).expanded ⊆ (s.doCollapse i).displayed := by
  rw [doCollapse]
  split
  · exact h
  · split
    · exact h
    · exact Finset.erase_subset_erase i h

private theorem foldl_doCollapse_fields (places : List Nat) (s : ProcessView) :
    ∃ expanded displayed, places.foldl doCollapse s = { s with expanded, displayed } := by
  induction places generalizing s with
  | nil => exact ⟨_, _, rfl⟩
  | cons i places ih =>
    obtain ⟨expanded, displayed, heq⟩ := ih (s.doCollapse i)
    obtain ⟨expanded', displayed', heq'⟩ := s.doCollapse_fields i
    exact ⟨expanded, displayed, by rw [List.foldl_cons, heq, heq']⟩

private theorem foldl_doCollapse (places : List Nat) (h : s.Inv t) (hshown : s.expanded ⊆ s.displayed) :
    (places.foldl doCollapse s).Inv t ∧
      (places.foldl doCollapse s).expanded ⊆ (places.foldl doCollapse s).displayed := by
  induction places generalizing s with
  | nil => exact ⟨h, hshown⟩
  | cons i places ih => exact ih (h.of_collapse i) (displayed_doCollapse hshown i)

/-- The answer to an open request. -/
theorem Inv.handle_answer (h : s.Inv t) (hk : t.pids.Nodup) {i j : Nat} {click : Option Nat}
    (hj : s.inFlight[j]? = some (i, click)) : ∃ node, s.registry[i]? = some node ∧
      (s.handle t (.answer j) = ([], { s with inFlight := s.inFlight.eraseIdx j }) ∧ node.pid ≤ 0 ∨
        ∃ procMap childProcs, s.handle t (.answer j) = ([.loaded i click], { s with
          inFlight := s.inFlight.eraseIdx j
          cache := s.cache.insert node.pid childProcs
          procMap
          registry := s.registry ++ childNodes t i node })) := by
  obtain ⟨node, hi, -⟩ := h.lists i (h.waiting i (List.mem_map_of_mem (List.mem_of_getElem? hj))).1
  refine ⟨node, hi, ?_⟩
  by_cases hpos : 0 < node.pid
  · have hnd : (((t.children node.pid).map t.processJson).map (·.record.pid)).Nodup := by
      rw [List.map_map]
      exact (allProcesses_nodup hk).sublist (List.filter_sublist.map _)
    obtain ⟨procMap, heq⟩ := addChildren_eq hnd i node
      { s with
        inFlight := s.inFlight.eraseIdx j
        cache := s.cache.insert node.pid ((t.children node.pid).map t.processJson) }
    refine .inr ⟨procMap, (t.children node.pid).map t.processJson, ?_⟩
    simp only [handle, hj, hi, handleProcessChildren, if_pos hpos]
    rw [heq]
    rfl
  · refine .inl ⟨?_, by omega⟩
    simp only [handle, hj, hi, handleProcessChildren, if_neg hpos]

private theorem Inv.handle_click (h : s.Inv t) (hshown : s.expanded ⊆ s.displayed) (i : Nat) :
    Working t (s.arrival t (.click i)) (s.handle t (.click i)).1 (s.handle t (.click i)).2 ∧
      (s.handle t (.click i)).1.length ≤ 1 := by
  rw [arrival]
  by_cases hexp : i ∈ s.expanded
  · obtain ⟨node, hi, hkids⟩ := h.lists i (h.expanded hexp)
    have heq : s.handle t (.click i) = ([], s.doCollapse i) := by
      simp only [handle, hi, hkids, if_pos hexp, if_true]
    rw [if_pos hexp, heq]
    exact ⟨.start (h.of_collapse i) (displayed_doCollapse hshown i) [], Nat.zero_le 1⟩
  · rw [if_neg hexp]
    cases hi : s.registry[i]? with
    | none =>
      simp only [handle, hi]
      exact ⟨.start h hshown [], Nat.zero_le 1⟩
    | some node =>
      cases hkids : node.proc.hasChildren with
      | false =>
        simp only [handle, hi, hkids, Bool.false_eq_true, if_false]
        exact ⟨.start h hshown [], Nat.zero_le 1⟩
      | true =>
        simp only [handle, hi, hkids, if_neg hexp, if_true]
        have hstart := Working.start h hshown [.done none]
        have hnone : ∀ (frames : List Frame) (j : Nat) (click : Option Nat),
            Frame.loaded j click ∈ [.done none] → .loaded j click ∈ frames := fun frames j click hin => by
          cases List.mem_singleton.mp hin
        rcases h.doExpand_cases hi hkids hexp none with ⟨hlist, heq⟩ | ⟨hnew, heq⟩
        · rw [heq]
          exact ⟨hstart.of_opening (hnone _) hlist List.mem_cons_self ⟨s.pending, rfl⟩, Nat.le_refl 1⟩
        · rw [heq]
          exact ⟨hstart.of_asking (hnone _) hi hkids hnew none ⟨s.pending, rfl⟩, Nat.zero_le 1⟩

/-- An event leaves at most one call to be worked off. -/
private theorem Inv.of_handle (h : s.Inv t) (hshown : s.expanded ⊆ s.displayed) (hk : t.pids.Nodup) (act : Act) :
    Working t (s.arrival t act) (s.handle t act).1 (s.handle t act).2 ∧ (s.handle t act).1.length ≤ 1 := by
  cases act with
  | click i => exact h.handle_click hshown i
  | expandAll =>
    exact ⟨.start (s := { s with pending := s.pending ++ [0] }) { h with } hshown _, Nat.le_refl 1⟩
  | collapseAll =>
    obtain ⟨hinv, hdisp⟩ := foldl_doCollapse (List.range s.registry.length).reverse h hshown
    exact ⟨.start hinv hdisp _, Nat.zero_le 1⟩
  | lose j => exact ⟨.start (h.of_drop j) hshown _, Nat.zero_le 1⟩
  | answer j =>
    rw [arrival]
    cases hj : s.inFlight[j]? with
    | none =>
      simp only [handle, hj]
      exact ⟨.start h hshown _, Nat.zero_le 1⟩
    | some request =>
      obtain ⟨i, click⟩ := request
      obtain ⟨node, hi, ⟨heq, -⟩ | ⟨procMap, childProcs, heq⟩⟩ := h.handle_answer hk hj
      · rw [heq]
        exact ⟨.start (h.of_drop j) hshown _, Nat.zero_le 1⟩
      · rw [heq]
        exact ⟨.start (h.of_answer hk hj hi procMap childProcs) hshown _, Nat.le_refl 1⟩

theorem Inv.length_le (h : s.Inv t) : s.registry.length ≤ t.processes.length := by
  have hsub : s.registry.map (·.pid) ⊆ t.pids := fun p hp => by
    obtain ⟨node, hnode, rfl⟩ := List.mem_map.mp hp
    exact (h.known node hnode).1.mem_pids
  have hle := (List.subperm_of_subset h.once hsub).length_le
  rwa [List.length_map, Tables.pids, List.length_map] at hle

/-- The steps that the calls of one event take at most. -/
def enoughFuel (t : Tables) : Nat := t.processes.length * (t.processes.length + 4) + t.processes.length + 3

theorem Inv.work_le (h : s.Inv t) {frames : List Frame} (hone : frames.length ≤ 1) : s.work frames ≤ enoughFuel t := by
  have hlen := h.length_le
  have hmul : (s.registry.length - s.expanded.card) * (s.registry.length + 4) ≤
      t.processes.length * (t.processes.length + 4) := Nat.mul_le_mul (by omega) (by omega)
  have hcost : ∀ f, frameCost s.registry.length f ≤ s.registry.length + 3 := fun f => by
    cases f <;> simp only [frameCost] <;> omega
  rw [work, enoughFuel]
  rcases frames with _ | ⟨f, _ | ⟨g, frames⟩⟩
  · simp only [List.map_nil, List.sum_nil]
    omega
  · have hf := hcost f
    rw [List.map_singleton, List.sum_singleton]
    omega
  · simp only [List.length_cons] at hone
    omega

/-- Every event is worked off, and the invariant holds behind it. -/
theorem step_total (h : s.Inv t) (hshown : s.expanded ⊆ s.displayed) (hk : t.pids.Nodup) (act : Act) {fuel : Nat}
    (hfuel : enoughFuel t ≤ fuel) : ∃ s', s.step t fuel act = some s' ∧ Working t (s.arrival t act) [] s' := by
  obtain ⟨hwork, hone⟩ := h.of_handle hshown hk act
  exact FrameStacks.run_total (fun _ _ _ hw => hw.step) hwork ((hwork.inv.work_le hone).trans hfuel)

theorem Working.shown (h : Working t s₀ [] s) : s.expanded ⊆ s.displayed := fun i hi =>
  (h.marked i hi).resolve_right fun ⟨_, hin⟩ => by cases hin

/-- Unless the answer is lost, or an error, what is asked for stays in flight or comes. -/
theorem Loads.of_arrival (h : s.Loads t) (hinv : s.Inv t) (hk : t.pids.Nodup) (hpos : ∀ r ∈ t.processes, 0 < r.pid)
    {act : Act} (hact : ∀ j, act ≠ .lose j) : (s.arrival t act).Loads t := by
  cases act with
  | click i =>
    rw [arrival]
    split
    · obtain ⟨expanded, displayed, heq⟩ := s.doCollapse_fields i
      rw [heq]
      exact ⟨h.roots, h.asked⟩
    · exact h
  | expandAll => exact ⟨h.roots, h.asked⟩
  | collapseAll =>
    obtain ⟨expanded, displayed, heq⟩ := foldl_doCollapse_fields (List.range s.registry.length).reverse s
    rw [arrival, ProcessView.collapseAll, heq]
    exact ⟨h.roots, h.asked⟩
  | lose j => exact absurd rfl (hact j)
  | answer j =>
    rw [arrival]
    cases hj : s.inFlight[j]? with
    | none =>
      simp only [handle, hj]
      exact h
    | some request =>
      obtain ⟨i, click⟩ := request
      obtain ⟨node, hi, ⟨-, hneg⟩ | ⟨procMap, childProcs, heq⟩⟩ := hinv.handle_answer hk hj
      · obtain ⟨r, hr, hpid⟩ := List.mem_map.mp (hinv.known node (List.mem_of_getElem? hi)).1.mem_pids
        have := hpos r hr
        omega
      · rw [heq]
        exact h.of_answer hinv hj hi procMap childProcs

end Steps

end ProcessView
end Bdtrace
