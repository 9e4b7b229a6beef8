import Bdtrace.Web.LazyEvents

/-! The process tree in the browser over whole runs. -/
namespace Bdtrace
open Std (TreeMap)
namespace ProcessView

section Runs
variable {t : Tables} {sort : List ProcessRecord → List ProcessRecord}

/-- The view that the first answer builds. -/
def first (sort : List ProcessRecord → List ProcessRecord) (t : Tables) : ProcessView :=
  opened (handleProcesses sort t true)

private theorem first_eq (hsort : SortsByStart sort) (hk : t.pids.Nodup) :
    ∃ (procMap : TreeMap Int ProcessJson) (shift : ProcessRecord → Int), first sort t =
    { procMap
      registry := t.rootProcesses.map fun r => ⟨r.pid, t.processJson (r.shiftBy (shift r)), 0, none⟩ } := by
  have hpids : ∀ shift : ProcessRecord → Int, ((t.rootProcesses.map fun r => r.shiftBy (shift r)).map t.processJson).map
      (·.record.pid) = t.rootProcesses.map (·.pid) := fun shift => by
    rw [List.map_map, List.map_map]
    rfl
  have hanswer : handleProcesses sort t true =
      let roots := t.rootProcesses.map fun r => r.shiftBy (idleBefore (sort t.rootProcesses) r.pid)
      ⟨roots.map t.processJson, roots.map (·.pid), none⟩ := by
    rw [handleProcesses, if_pos rfl, compactRuns_eq hsort (rootProcesses_nodup hk)]
  rw [first, hanswer]
  obtain ⟨procMap, heq⟩ := @opened_eq ⟨(t.rootProcesses.map fun r =>
      r.shiftBy (idleBefore (sort t.rootProcesses) r.pid)).map t.processJson, (t.rootProcesses.map fun r =>
      r.shiftBy (idleBefore (sort t.rootProcesses) r.pid)).map (·.pid), none⟩
    (by rw [List.map_map, List.map_map, List.map_map]; rfl) (by rw [hpids]; exact rootProcesses_nodup hk)
  refine ⟨procMap, fun r => idleBefore (sort t.rootProcesses) r.pid, heq.trans ?_⟩
  rw [List.map_map, List.map_map]
  rfl

theorem inv_first (hsort : SortsByStart sort) (hk : t.pids.Nodup) :
    (first sort t).Inv t ∧ (first sort t).Loads t ∧ (first sort t).expanded ⊆ (first sort t).displayed ∧
      (first sort t).inFlight = [] := by
  obtain ⟨procMap, shift, heq⟩ := first_eq hsort hk
  rw [heq]
  have hmem : ∀ node ∈ t.rootProcesses.map fun r => (⟨r.pid, t.processJson (r.shiftBy (shift r)), 0, none⟩ : TreeNode),
      ∃ r ∈ t.processes, r.ppid ∉ t.pids ∧ node = ⟨r.pid, t.processJson (r.shiftBy (shift r)), 0, none⟩ := by
    intro node hnode
    obtain ⟨r, hr, rfl⟩ := List.mem_map.mp hnode
    obtain ⟨hin, hout⟩ := (mem_rootProcesses r).mp hr
    exact ⟨r, hin, hout, rfl⟩
  refine ⟨⟨?_, ?_, ?_, ?_, ?_, Finset.Subset.refl _, List.nodup_nil, ?_, ?_⟩, ⟨?_, ?_⟩, Finset.Subset.refl _, rfl⟩
  · rw [List.map_map]
    exact rootProcesses_nodup hk
  · intro node hnode
    obtain ⟨r, hr, hout, rfl⟩ := hmem node hnode
    exact ⟨⟨r, hr, hout, .refl⟩, hasChildren_processJson _⟩
  · intro node hnode _
    obtain ⟨r, hr, hout, rfl⟩ := hmem node hnode
    exact ⟨rfl, r, hr, rfl, hout⟩
  · intro node hnode i hup
    obtain ⟨r, -, -, rfl⟩ := hmem node hnode
    cases hup
  · exact fun i hi => absurd hi (Finset.notMem_empty i)
  · exact fun i hi => by cases hi
  · exact fun p hp => absurd hp Std.TreeMap.not_mem_emptyc
  · intro r hr hout
    rw [List.map_map]
    exact List.mem_map_of_mem (f := fun r => r.pid) ((mem_rootProcesses r).mpr ⟨hr, hout⟩)
  · exact fun i node _ hi => absurd hi (Finset.notMem_empty i)

/-- Between events: the invariant, and the lists of the expanded nodes are not hidden. -/
structure Rest (t : Tables) (s : ProcessView) : Prop where
  inv : s.Inv t
  displayed : s.expanded ⊆ s.displayed

private theorem Rest.of_step {s : ProcessView} (h : Rest t s) (hk : t.pids.Nodup) (act : Act) {fuel : Nat}
    (hfuel : enoughFuel t ≤ fuel) : ∃ s', s.step t fuel act = some s' ∧ Rest t s' ∧
      Working t (s.arrival t act) [] s' := by
  obtain ⟨s', hs', hw⟩ := step_total h.inv h.displayed hk act hfuel
  exact ⟨s', hs', ⟨hw.inv, hw.shown⟩, hw⟩

/-- A run without lost answers. -/
def Lossless (acts : List Act) : Prop := ∀ act ∈ acts, ∀ j, act ≠ .lose j

theorem Rest.of_run {s : ProcessView} (h : Rest t s) (hk : t.pids.Nodup) (acts : List Act) {fuel : Nat}
    (hfuel : enoughFuel t ≤ fuel) : ∃ s', acts.foldlM (step t fuel) s = some s' ∧ Rest t s' ∧
      ((∀ r ∈ t.processes, 0 < r.pid) → Lossless acts → s.Loads t → s'.Loads t) := by
  induction acts generalizing s with
  | nil => exact ⟨s, rfl, h, fun _ _ hloads => hloads⟩
  | cons act acts ih =>
    obtain ⟨s₁, hs₁, hrest, hw⟩ := h.of_step hk act hfuel
    obtain ⟨s', hs', hrest', hloads'⟩ := ih hrest
    refine ⟨s', ?_, hrest', fun hpos hall hloads => ?_⟩
    · rw [List.foldlM_cons, hs₁]
      exact hs'
    · have harrival := hloads.of_arrival h.inv hk hpos (hall act List.mem_cons_self)
      exact hloads' hpos (fun a ha => hall a (List.mem_cons_of_mem _ ha)) (harrival.of_working hw)

end Runs

/-- Whatever is clicked on and whenever the answers come, every event is worked off, and each process that is shown is
shown once, below its parent. If no answer is lost, then with nothing in flight and nothing left to be opened the
processes below the roots are all there. -/
theorem lazy_tree {sort : List ProcessRecord → List ProcessRecord} (hsort : SortsByStart sort) (t : Tables)
    (hk : t.pids.Nodup) {fuel : Nat} (hfuel : enoughFuel t ≤ fuel) (acts : List Act) :
    ∃ s, acts.foldlM (step t fuel) (first sort t) = some s ∧ Rest t s ∧
      ((∀ r ∈ t.processes, 0 < r.pid) → Lossless acts → s.inFlight = [] →
        (∀ i node, s.registry[i]? = some node → node.proc.hasChildren = true → i ∈ s.childUl) →
        ∀ p, p ∈ s.registry.map (·.pid) ↔ t.Rooted p) := by
  obtain ⟨hinv, hloads, hshown, -⟩ := inv_first hsort hk
  obtain ⟨s, hs, hrest, hfull⟩ := Rest.of_run ⟨hinv, hshown⟩ hk acts hfuel
  exact ⟨s, hs, hrest, fun hpos hall hfly hopen => (hfull hpos hall hloads).complete hfly hopen hrest.inv⟩

/-- A driver, a compiler with an assembler, and a linker. -/
def smallBuild : Tables where
  processes := [{ pid := 1, ppid := 0 }, { pid := 2, ppid := 1, startTimeUs := 1 },
    { pid := 3, ppid := 2, startTimeUs := 2 }, { pid := 4, ppid := 1, startTimeUs := 3 }]

theorem lazy_tree_smallBuild : ∃ s, [Act.click 0, .click 0, .answer 0, .expandAll].foldlM (step smallBuild 40)
    (first stableSort smallBuild) = some s ∧ Rest smallBuild s := by
  obtain ⟨s, hs, hrest, -⟩ := @lazy_tree _ stableSort_sorts smallBuild (by decide) 40 (by decide)
    [.click 0, .click 0, .answer 0, .expandAll]
  exact ⟨s, hs, hrest⟩

/-- Collapsed while its children load, a node displays them when they come, although it is not expanded. -/
example : ([Act.click 0, .click 0, .answer 0].foldlM (step smallBuild 40) (first stableSort smallBuild)).map
    (fun s => (s.registry.map (·.pid), decide (0 ∈ s.expanded), decide (0 ∈ s.displayed))) =
      some ([1, 2, 4], false, true) := by decide +kernel

end ProcessView
end Bdtrace
