import Bdtrace.Web.LazyTree

/-! "Expand All": `expandAll` counts the answers it waits for, and starts over when none is missing. -/
namespace Bdtrace

namespace Frame

/-- The call of `expandAll` that a call belongs to. -/
def click : Frame → Option Nat
  | loaded _ click => click
  | done click => click
  | scan click _ => some click

/-- The calls that count down when they are over. -/
def countsDown : Frame → Bool
  | loaded _ _ => true
  | done _ => true
  | scan _ _ => false

end Frame

namespace ProcessView
variable {t : Tables} {s s₀ : ProcessView} {k : Nat} {f : Frame} {frames rest : List Frame}

/-- One call of `expandAll` is at work, and no other waits for an answer: its counter is the number of answers and
callbacks to come, and a node that could be expanded waits for its loop or for the counter to reach zero. -/
structure Expanding (k : Nat) (frames : List Frame) (s : ProcessView) : Prop where
  requests : ∀ e ∈ s.inFlight, e.2 = some k
  calls : ∀ f ∈ frames, f.click = some k
  counter : k < s.pending.length
  count : s.pending.getD k 0 = s.inFlight.length + (frames.filter Frame.countsDown).length
  covered : 0 < s.pending.getD k 0 ∨ ∀ j node, s.registry[j]? = some node →
    node.proc.hasChildren = true → j ∉ s.expanded →
    ∃ i ≤ j, .scan k i ∈ frames

private theorem getD_counting (h : k < s.pending.length) :
    (s.counting k).pending.getD k 0 = s.pending.getD k 0 + 1 := by
  simp [counting, List.getD_eq_getElem?_getD, h]

private theorem length_counting (k : Nat) (s : ProcessView) : (s.counting k).pending.length = s.pending.length :=
  List.length_set

private theorem filter_countsDown_scan (k i : Nat) (rest : List Frame) :
    ((Frame.scan k i :: rest).filter Frame.countsDown).length = (rest.filter Frame.countsDown).length := rfl

/-- A counter that counts down to zero starts the loop over. -/
private theorem Expanding.of_done (h : Expanding k (.done (some k) :: rest) s) :
    Expanding k ((s.advance (.done (some k))).1 ++ rest) (s.advance (.done (some k))).2 := by
  have hrest := (List.forall_mem_cons.mp h.calls).2
  have hcount := h.count
  simp only [List.filter_cons, Frame.countsDown, if_true, List.length_cons] at hcount
  have hset : (s.pending.set k (s.pending.getD k 0 - 1)).getD k 0 = s.pending.getD k 0 - 1 := by
    simp [List.getD_eq_getElem?_getD, h.counter]
  have hcounter : k < (s.pending.set k (s.pending.getD k 0 - 1)).length := by
    rw [List.length_set]
    exact h.counter
  rw [advance]
  by_cases hzero : s.pending.getD k 0 - 1 = 0
  · rw [if_pos hzero]
    refine ⟨h.requests, List.forall_mem_cons.mpr ⟨rfl, hrest⟩, hcounter, ?_, .inr fun j node _ _ _ => ?_⟩
    · rw [List.singleton_append, filter_countsDown_scan, hset]
      push_cast at hcount
      show _ = (s.inFlight.length : Int) + _
      omega
    · exact ⟨0, Nat.zero_le j, List.mem_cons_self⟩
  · rw [if_neg hzero]
    refine ⟨h.requests, hrest, hcounter, ?_, .inl ?_⟩
    · rw [List.nil_append, hset]
      push_cast at hcount
      show _ = (s.inFlight.length : Int) + _
      omega
    · rw [hset]
      push_cast at hcount
      omega

/-- A turn of the loop leaves no node behind that it could expand. -/
private theorem Expanding.of_scan {i : Nat} (h : Expanding k (.scan k i :: rest) s) (hinv : s.Inv t) :
    Expanding k ((s.advance (.scan k i)).1 ++ rest) (s.advance (.scan k i)).2 := by
  have hrest := (List.forall_mem_cons.mp h.calls).2
  have hcount := h.count
  rw [filter_countsDown_scan] at hcount
  rcases hinv.scan_cases k i with ⟨hend, heq⟩ | ⟨node, hi, ⟨hskip, heq⟩ | ⟨-, ⟨hlist, heq⟩ | ⟨hnew, heq⟩⟩⟩
  · rw [heq]
    refine ⟨h.requests, hrest, h.counter, hcount, h.covered.imp_right fun hall j node hj hkids hexp => ?_⟩
    obtain ⟨i', hle, hin⟩ := hall j node hj hkids hexp
    have hlen : j < s.registry.length := (List.getElem?_eq_some_iff.mp hj).1
    rcases List.mem_cons.mp hin with hsame | hin
    · cases hsame
      omega
    · exact ⟨i', hle, hin⟩
  · rw [heq]
    refine ⟨h.requests, List.forall_mem_cons.mpr ⟨rfl, hrest⟩, h.counter, hcount,
      h.covered.imp_right fun hall j other hj hkids hexp => ?_⟩
    obtain ⟨i', hle, hin⟩ := hall j other hj hkids hexp
    rcases List.mem_cons.mp hin with hsame | hin
    · cases hsame
      have hne : i ≠ j := by
        rintro rfl
        obtain rfl := Option.some.inj (hi.symm.trans hj)
        exact hskip.elim (fun hno => by rw [hno] at hkids; cases hkids) hexp
      exact ⟨i + 1, by omega, List.mem_cons_self⟩
    · exact ⟨i', hle, List.mem_cons_of_mem _ hin⟩
  · rw [heq]
    have hcounting := getD_counting h.counter
    refine ⟨h.requests, List.forall_mem_cons.mpr ⟨rfl, List.forall_mem_cons.mpr ⟨rfl, hrest⟩⟩,
      (length_counting k s).symm ▸ h.counter, ?_, .inl ?_⟩
    · show (s.counting k).pending.getD k 0 = (s.inFlight.length : Int) +
        ((rest.filter Frame.countsDown).length + 1 : Nat)
      rw [hcounting]
      push_cast
      omega
    · show 0 < (s.counting k).pending.getD k 0
      omega
  · rw [heq]
    have hcounting := getD_counting h.counter
    refine ⟨fun e he => ?_, List.forall_mem_cons.mpr ⟨rfl, hrest⟩, (length_counting k s).symm ▸ h.counter, ?_, .inl ?_⟩
    · rcases List.mem_append.mp he with hold | hnew
      · exact h.requests e hold
      · rw [List.mem_singleton.mp hnew]
    · show (s.counting k).pending.getD k 0 =
        ((s.inFlight ++ [(i, some k)]).length : Int) + (rest.filter Frame.countsDown).length
      rw [hcounting, List.length_append, List.length_singleton]
      push_cast
      omega
    · show 0 < (s.counting k).pending.getD k 0
      omega

theorem Expanding.step (h : Expanding k (f :: rest) s) (hinv : s.Inv t) :
    Expanding k ((s.advance f).1 ++ rest) (s.advance f).2 := by
  obtain ⟨hf, hrest⟩ := List.forall_mem_cons.mp h.calls
  cases f with
  | loaded i click =>
    obtain rfl : click = some k := hf
    have hcount := h.count
    refine ⟨h.requests, List.forall_mem_cons.mpr ⟨rfl, hrest⟩, h.counter, hcount, .inl ?_⟩
    simp only [List.filter_cons, Frame.countsDown, if_true, List.length_cons] at hcount
    show 0 < s.pending.getD k 0
    push_cast at hcount
    omega
  | done click =>
    obtain rfl : click = some k := hf
    exact h.of_done
  | scan k' i =>
    obtain rfl : k' = k := Option.some.inj hf
    exact h.of_scan hinv

/-- The calls of an event in which only this call of `expandAll` is at work. -/
private theorem run_expanding (hw : Working t s₀ frames s) (h : Expanding k frames s) {fuel : Nat}
    (hfuel : s.work frames ≤ fuel) :
    ∃ s', FrameStacks.run advance fuel frames s = some s' ∧ Working t s₀ [] s' ∧ Expanding k [] s' :=
  @FrameStacks.run_total _ _ advance (fun frames s => Working t s₀ frames s ∧ Expanding k frames s)
    (fun frames s => s.work frames)
    (fun _ _ _ hboth => ⟨⟨hboth.1.step.1, hboth.2.step hboth.1.inv⟩, hboth.1.step.2⟩) fuel frames s ⟨hw, h⟩ hfuel

/-- With no answer missing every node is expanded that has children. -/
private theorem Expanding.all_expanded (h : Expanding k [] s) (hfly : s.inFlight = []) :
    ∀ j node, s.registry[j]? = some node → node.proc.hasChildren = true → j ∈ s.expanded := by
  intro j node hj hkids
  by_contra hexp
  have hcount := h.count
  rw [hfly] at hcount
  rcases h.covered with hpos | hall
  · rw [hcount] at hpos
    exact absurd hpos (by decide)
  · obtain ⟨i, -, hin⟩ := hall j node hj hkids hexp
    cases hin

/-! ### Answers in any order -/

/-- The requests that are answered, one after the other, in the order that `pick` chooses. -/
def serve (t : Tables) (fuel : Nat) (pick : ProcessView → Nat) : Nat → ProcessView → Option ProcessView
  | 0, s => some s
  | n + 1, s =>
    if s.inFlight = [] then some s
    else do
      let s ← s.step t fuel (.answer (pick s % s.inFlight.length))
      s.serve t fuel pick n

/-- The lists that are not waited for. -/
def answered (s : ProcessView) : Nat := s.childUl.card - s.inFlight.length

private theorem Inv.inFlight_le (h : s.Inv t) : s.inFlight.length ≤ s.childUl.card := by
  have hsub : (s.inFlight.map (·.1)).toFinset ⊆ s.childUl := fun i hi => (h.waiting i (List.mem_toFinset.mp hi)).1
  have hle := Finset.card_le_card hsub
  rwa [List.toFinset_card_of_nodup h.flying, List.length_map] at hle

private theorem Inv.childUl_le (h : s.Inv t) : s.childUl.card ≤ t.processes.length := by
  have hsub : s.childUl ⊆ Finset.range s.registry.length := fun i hi => by
    obtain ⟨node, hnode, -⟩ := h.lists i hi
    exact Finset.mem_range.mpr (List.getElem?_eq_some_iff.mp hnode).1
  have hle := Finset.card_le_card hsub
  rw [Finset.card_range] at hle
  exact hle.trans h.length_le

/-- While only `expandAll` is at work. -/
structure Serving (t : Tables) (k : Nat) (s : ProcessView) : Prop where
  rest : Rest t s
  loads : s.Loads t
  expanding : Expanding k [] s

/-- An answer takes the place of its request. -/
private theorem Expanding.of_answered (h : Expanding k [] s) {j : Nat} (hj : j < s.inFlight.length) (i : Nat)
    (cache : Std.TreeMap Int (List ProcessJson)) (procMap : Std.TreeMap Int ProcessJson) (registry : List TreeNode) :
    Expanding k [.loaded i (some k)] { s with inFlight := s.inFlight.eraseIdx j, cache, procMap, registry } := by
  have hlen := List.length_eraseIdx_of_lt hj
  have hcount : s.pending.getD k 0 = s.inFlight.length := h.count.trans (Int.add_zero _)
  refine ⟨fun e he => ?_, fun f hf => ?_, h.counter, ?_, .inl ?_⟩
  · exact h.requests e ((List.eraseIdx_sublist _ j).subset he)
  · rw [List.mem_singleton.mp hf]
    rfl
  · show s.pending.getD k 0 = ((s.inFlight.eraseIdx j).length : Int) + (1 : Nat)
    omega
  · show 0 < s.pending.getD k 0
    omega

/-- A click on "Expand All" with nothing in flight. -/
private theorem Expanding.of_click (hfly : s.inFlight = []) :
    Expanding s.pending.length [.scan s.pending.length 0] { s with pending := s.pending ++ [0] } := by
  refine ⟨fun e he => ?_, fun f hf => ?_, ?_, ?_, .inr fun j node _ _ _ => ?_⟩
  · rw [show s.inFlight = [] from hfly] at he
    cases he
  · rw [List.mem_singleton.mp hf]
    rfl
  · show _ < (s.pending ++ [0]).length
    rw [List.length_append]
    exact Nat.lt_succ_self _
  · show (s.pending ++ [0]).getD s.pending.length 0 = (s.inFlight.length : Int) + (0 : Nat)
    rw [hfly]
    simp
  · exact ⟨0, Nat.zero_le j, List.mem_singleton_self _⟩

/-- One answer more is there, and the calls that it sets off are worked off. -/
theorem Serving.of_answer (h : Serving t k s) (hk : t.pids.Nodup) (hpos : ∀ r ∈ t.processes, 0 < r.pid) {fuel : Nat}
    (hfuel : enoughFuel t ≤ fuel) {j : Nat} (hj : j < s.inFlight.length) :
    ∃ s', s.step t fuel (.answer j) = some s' ∧ Serving t k s' ∧ s'.answered = s.answered + 1 := by
  have hinv := h.rest.inv
  obtain ⟨i, click, hij⟩ : ∃ i click, s.inFlight[j]? = some (i, click) := ⟨_, _, List.getElem?_eq_getElem hj⟩
  obtain rfl : click = some k := h.expanding.requests _ (List.mem_of_getElem? hij)
  obtain ⟨node, hi, ⟨-, hneg⟩ | ⟨procMap, childProcs, heq⟩⟩ := hinv.handle_answer hk hij
  · obtain ⟨r, hr, hpid⟩ := List.mem_map.mp (hinv.known node (List.mem_of_getElem? hi)).1.mem_pids
    have := hpos r hr
    omega
  · have hbase := hinv.of_answer hk hij hi procMap childProcs
    have hlen := List.length_eraseIdx_of_lt hj
    have hwork := hbase.work_le (List.length_singleton (a := Frame.loaded i (some k))).le
    have hstart := Working.start hbase h.rest.displayed [.loaded i (some k)]
    obtain ⟨s', hs', hw, hexp⟩ := run_expanding hstart (h.expanding.of_answered hj i _ _ _) (hwork.trans hfuel)
    refine ⟨s', by rw [ProcessView.step, heq]; exact hs', ⟨⟨hw.inv, hw.shown⟩, ?_, hexp⟩, ?_⟩
    · exact (h.loads.of_answer hinv hij hi procMap childProcs).of_working hw
    · have hsame : s'.childUl.card + (s.inFlight.eraseIdx j).length = s.childUl.card + s'.inFlight.length := hw.count
      have hle := hw.inv.inFlight_le
      have hle' := hinv.inFlight_le
      rw [answered, answered]
      omega

private theorem Serving.of_serve (h : Serving t k s) (hk : t.pids.Nodup)
    (hpos : ∀ r ∈ t.processes, 0 < r.pid) {fuel : Nat}
    (hfuel : enoughFuel t ≤ fuel) (pick : ProcessView → Nat) {n : Nat} (hn : t.processes.length ≤ n + s.answered) :
    ∃ s', s.serve t fuel pick n = some s' ∧ Serving t k s' ∧ s'.inFlight = [] := by
  induction n generalizing s with
  | zero =>
    refine ⟨s, rfl, h, List.length_eq_zero_iff.mp ?_⟩
    have hle := h.rest.inv.inFlight_le
    have hle' := h.rest.inv.childUl_le
    rw [answered] at hn
    omega
  | succ n ih =>
    rw [serve]
    by_cases hfly : s.inFlight = []
    · exact ⟨s, if_pos hfly, h, hfly⟩
    · have hj : pick s % s.inFlight.length < s.inFlight.length := Nat.mod_lt _ (List.length_pos_iff.mpr hfly)
      obtain ⟨s₁, hs₁, hserving, hmore⟩ := h.of_answer hk hpos hfuel hj
      obtain ⟨s', hs', hend⟩ := ih hserving (by omega)
      refine ⟨s', ?_, hend⟩
      rw [if_neg hfly, hs₁]
      exact hs'

/-- Clicked on with nothing in flight, "Expand All" ends, in whatever order the answers come: after at most one answer
for each process nothing is in flight, every process below a root is shown, and every node with children is expanded. -/
theorem expand_all {sort : List ProcessRecord → List ProcessRecord} (hsort : SortsByStart sort) (t : Tables)
    (hk : t.pids.Nodup) (hpos : ∀ r ∈ t.processes, 0 < r.pid) {fuel : Nat}
    (hfuel : enoughFuel t ≤ fuel) (acts : List Act)
    (hacts : Lossless acts) (pick : ProcessView → Nat) :
    ∃ s, acts.foldlM (step t fuel) (first sort t) = some s ∧ (s.inFlight = [] →
      ∃ s₁ s₂, s.step t fuel .expandAll = some s₁ ∧ s₁.serve t fuel pick t.processes.length = some s₂ ∧
        s₂.inFlight = [] ∧ (∀ p, p ∈ s₂.registry.map (·.pid) ↔ t.Rooted p) ∧
        ∀ i node, s₂.registry[i]? = some node → node.proc.hasChildren = true → i ∈ s₂.expanded ∧ i ∈ s₂.displayed) := by
  obtain ⟨hinv, hloads, hshown, -⟩ := inv_first hsort hk
  obtain ⟨s, hs, hrest, hfull⟩ := Rest.of_run ⟨hinv, hshown⟩ hk acts hfuel
  refine ⟨s, hs, fun hfly => ?_⟩
  have hopen : ({ s with pending := s.pending ++ [0] } : ProcessView).Inv t := { hrest.inv with }
  have hwork := hopen.work_le (List.length_singleton (a := Frame.scan s.pending.length 0)).le
  obtain ⟨s₁, hs₁, hw, hexp⟩ := run_expanding (.start hopen hrest.displayed _) (.of_click hfly) (hwork.trans hfuel)
  have hopened : ({ s with pending := s.pending ++ [0] } : ProcessView).Loads t :=
    ⟨(hfull hpos hacts hloads).roots, (hfull hpos hacts hloads).asked⟩
  obtain ⟨s₂, hs₂, hserving, hend⟩ := Serving.of_serve ⟨⟨hw.inv, hw.shown⟩, hopened.of_working hw, hexp⟩
    hk hpos hfuel pick
    (Nat.le_add_right t.processes.length s₁.answered)
  have hall := hserving.expanding.all_expanded hend
  refine ⟨s₁, s₂, hs₁, hs₂, hend, ?_, fun i node hi hkids => ?_⟩
  · exact hserving.loads.complete hend (fun i node hi hkids => hserving.rest.inv.expanded (hall i node hi hkids))
      hserving.rest.inv
  · exact ⟨hall i node hi hkids, hserving.rest.displayed (hall i node hi hkids)⟩

/-- The whole tree of a small build, of which one node was open. -/
theorem expand_all_smallBuild : ∃ s,
    [Act.click 0, .answer 0].foldlM (step smallBuild 40) (first stableSort smallBuild) = some s ∧ (s.inFlight = [] →
      ∃ s₁ s₂, s.step smallBuild 40 .expandAll = some s₁ ∧
      s₁.serve smallBuild 40 (fun s => s.inFlight.length) smallBuild.processes.length = some s₂ ∧ s₂.inFlight = [] ∧
        (∀ p, p ∈ s₂.registry.map (·.pid) ↔ smallBuild.Rooted p) ∧
        ∀ i node, s₂.registry[i]? = some node → node.proc.hasChildren = true → i ∈ s₂.expanded ∧ i ∈ s₂.displayed) :=
  expand_all stableSort_sorts smallBuild (by decide) (by decide) (by decide) _ (by simp [Lossless])
    fun s => s.inFlight.length

end ProcessView
end Bdtrace
