import Bdtrace.Web.LazyInvariant

/-! The calls that one event of the process tree leads to: they end, and keep the invariant. -/
namespace Bdtrace
open Std (TreeMap)
namespace ProcessView
section Steps
variable {t : Tables} {s : ProcessView}

/-- The counter of a call of `expandAll` goes up. -/
def counting (s : ProcessView) (k : Nat) : ProcessView := { s with pending := s.pending.set k (s.pending.getD k 0 + 1) }

private theorem Inv.of_counting (h : s.Inv t) (k : Nat) : (s.counting k).Inv t := { h with }

/-- A turn of the loop of `tryExpand`: behind the last node it ends, it passes over a node that it need not expand, and
it expands the others at once or asks for their children. -/
theorem Inv.scan_cases (h : s.Inv t) (k i : Nat) :
    (s.registry.length ≤ i ∧ s.advance (.scan k i) = ([], s)) ∨
    ∃ node, s.registry[i]? = some node ∧
      (((node.proc.hasChildren = false ∨ i ∈ s.expanded) ∧ s.advance (.scan k i) = ([.scan k (i + 1)], s)) ∨
        ((node.proc.hasChildren = true ∧ i ∉ s.expanded) ∧
          ((i ∈ s.childUl ∧
              s.advance (.scan k i) = ([.loaded i (some k), .scan k (i + 1)], (s.counting k).opening i)) ∨
            (i ∉ s.childUl ∧ s.advance (.scan k i) = ([.scan k (i + 1)], (s.counting k).asking i (some k)))))) := by
  cases hi : s.registry[i]? with
  | none =>
    refine .inl ⟨List.getElem?_eq_none_iff.mp hi, ?_⟩
    simp only [advance, hi]
  | some node =>
    refine .inr ⟨node, rfl, ?_⟩
    by_cases hgo : node.proc.hasChildren = true ∧ i ∉ s.expanded
    · refine .inr ⟨hgo, ?_⟩
      have hadvance : s.advance (.scan k i) =
          (((s.counting k).doExpand i (some k)).1 ++ [.scan k (i + 1)], ((s.counting k).doExpand i (some k)).2) := by
        simp only [advance, hi]
        rw [if_pos hgo]
        rfl
      rcases (h.of_counting k).doExpand_cases hi hgo.1 hgo.2 (some k) with ⟨hlist, heq⟩ | ⟨hlist, heq⟩
      · exact .inl ⟨hlist, by rw [hadvance, heq]; rfl⟩
      · exact .inr ⟨hlist, by rw [hadvance, heq]; rfl⟩
    · refine .inl ⟨?_, ?_⟩
      · rw [not_and_or, not_not, Bool.not_eq_true] at hgo
        exact hgo
      · simp only [advance, hi]
        rw [if_neg hgo]

def frameCost (n : Nat) : Frame → Nat
  | .loaded _ _ => n + 3
  | .done _ => n + 2
  | .scan _ i => n - i + 1

/-- What remains to be done: every node is expanded once, and then the loop may start again. -/
def work (frames : List Frame) (s : ProcessView) : Nat :=
  (s.registry.length - s.expanded.card) * (s.registry.length + 4) + (frames.map (frameCost s.registry.length)).sum

private theorem Inv.expanded_lt (h : s.Inv t) {i : Nat} (hi : i ∈ s.expanded) : i < s.registry.length := by
  obtain ⟨node, hnode, -⟩ := h.lists i (h.expanded hi)
  exact (List.getElem?_eq_some_iff.mp hnode).1

private theorem Inv.card_expanded (h : s.Inv t) {i : Nat} (hi : i < s.registry.length) (hexp : i ∉ s.expanded) :
    s.expanded.card < s.registry.length := by
  have hsub : insert i s.expanded ⊆ Finset.range s.registry.length :=
    Finset.insert_subset (Finset.mem_range.mpr hi) fun j hj => Finset.mem_range.mpr (h.expanded_lt hj)
  have hle := Finset.card_le_card hsub
  rw [Finset.card_insert_of_notMem hexp, Finset.card_range] at hle
  exact hle

/-- While the calls of an event run, from `s₀` on, no answer comes: new lists wait for theirs. -/
structure Working (t : Tables) (s₀ : ProcessView) (frames : List Frame) (s : ProcessView) : Prop where
  inv : s.Inv t
  marked : ∀ i ∈ s.expanded, i ∈ s.displayed ∨ ∃ click, .loaded i click ∈ frames
  registry : s.registry = s₀.registry
  asked : ∀ i ∈ s.childUl, i ∈ s₀.childUl ∨ i ∈ s.inFlight.map (·.1)
  still : s₀.inFlight <+: s.inFlight
  count : s.childUl.card + s₀.inFlight.length = s₀.childUl.card + s.inFlight.length

variable {s₀ : ProcessView} {rest : List Frame}

theorem Working.start (h : s.Inv t) (hmarked : s.expanded ⊆ s.displayed) (frames : List Frame) : Working t s frames s :=
  ⟨h, fun _ hi => .inl (hmarked hi), rfl, fun _ hi => .inl hi, List.prefix_rfl, rfl⟩

/-- A node whose list exists is expanded. -/
theorem Working.of_opening {f : Frame} {frames : List Frame} (h : Working t s₀ (f :: rest) s)
    (hframes : ∀ i click, .loaded i click ∈ f :: rest → .loaded i click ∈ frames) {i : Nat} (hlist : i ∈ s.childUl)
    {click : Option Nat} (hloaded : .loaded i click ∈ frames) {s' : ProcessView}
    (hs' : ∃ pending, s' = ({ s with pending } : ProcessView).opening i) : Working t s₀ frames s' := by
  obtain ⟨pending, rfl⟩ := hs'
  have hinv : ({ s with pending } : ProcessView).Inv t := { h.inv with }
  refine ⟨hinv.of_opening hlist, fun j hj => ?_, h.registry, h.asked, h.still, h.count⟩
  rcases Finset.mem_insert.mp hj with rfl | hj
  · exact .inr ⟨click, hloaded⟩
  · exact (h.marked j hj).imp_right fun ⟨click', hin⟩ => ⟨click', hframes j click' hin⟩

/-- The children of a node are asked for. -/
theorem Working.of_asking {f : Frame} {frames : List Frame} (h : Working t s₀ (f :: rest) s)
    (hframes : ∀ i click, .loaded i click ∈ f :: rest → .loaded i click ∈ frames) {i : Nat} {node : TreeNode}
    (hi : s.registry[i]? = some node) (hkids : node.proc.hasChildren = true) (hnew : i ∉ s.childUl) (click : Option Nat)
    {s' : ProcessView} (hs' : ∃ pending, s' = ({ s with pending } : ProcessView).asking i click) :
    Working t s₀ frames s' := by
  obtain ⟨pending, rfl⟩ := hs'
  have hinv : ({ s with pending } : ProcessView).Inv t := { h.inv with }
  refine ⟨hinv.of_asking hi hkids hnew click, fun j hj => ?_, h.registry, fun j hj => ?_, ?_, ?_⟩
  · rcases Finset.mem_insert.mp hj with rfl | hj
    · exact .inl (Finset.mem_insert_self j _)
    · rcases h.marked j hj with hshown | ⟨click', hin⟩
      · exact .inl (Finset.mem_insert_of_mem hshown)
      · exact .inr ⟨click', hframes j click' hin⟩
  · show j ∈ s₀.childUl ∨ j ∈ (s.inFlight ++ [(i, click)]).map (·.1)
    rw [List.map_append, List.mem_append]
    rcases Finset.mem_insert.mp hj with rfl | hj
    · exact .inr (.inr (List.mem_singleton.mpr rfl))
    · exact (h.asked j hj).imp_right .inl
  · exact h.still.trans (List.prefix_append _ _)
  · have hcount := h.count
    show (insert i s.childUl).card + _ = _ + (s.inFlight ++ [(i, click)]).length
    rw [Finset.card_insert_of_notMem hnew, List.length_append, List.length_singleton]
    omega

private theorem Working.of_pending {f : Frame} {frames : List Frame} (h : Working t s₀ (f :: rest) s)
    (hframes : ∀ i click, .loaded i click ∈ f :: rest → .loaded i click ∈ frames) (pending : List Int) :
    Working t s₀ frames { s with pending } :=
  ⟨{ h.inv with }, fun j hj => (h.marked j hj).imp_right fun ⟨click, hin⟩ => ⟨click, hframes j click hin⟩, h.registry,
    h.asked, h.still, h.count⟩

private theorem work_append (new rest : List Frame) (s : ProcessView) :
    s.work (new ++ rest) = s.work rest + (new.map (frameCost s.registry.length)).sum := by
  rw [work, work, List.map_append, List.sum_append]
  omega

/-- Less work remains when a call makes cheaper calls. -/
private theorem work_lt {f : Frame} {new : List Frame} {s' : ProcessView} (hregistry : s'.registry = s.registry)
    (hexp : s'.expanded = s.expanded)
    (hcost : (new.map (frameCost s.registry.length)).sum < frameCost s.registry.length f) :
    s'.work (new ++ rest) < s.work (f :: rest) := by
  have hold := work_append [f] rest s
  rw [List.singleton_append, List.map_singleton, List.sum_singleton] at hold
  rw [work_append, hregistry, hold, work, work, hregistry, hexp]
  omega

/-- An expansion makes up for the calls that come with it. -/
private theorem Inv.work_lt (h : s.Inv t) {i : Nat} (hi : i < s.registry.length) (hnew : i ∉ s.expanded) {f : Frame}
    {new : List Frame} {s' : ProcessView} (hregistry : s'.registry = s.registry)
    (hexp : s'.expanded = insert i s.expanded)
    (hcost : (new.map (frameCost s.registry.length)).sum < frameCost s.registry.length f + (s.registry.length + 4)) :
    s'.work (new ++ rest) < s.work (f :: rest) := by
  have hold := work_append [f] rest s
  rw [List.singleton_append, List.map_singleton, List.sum_singleton] at hold
  obtain ⟨m, hm⟩ := Nat.exists_eq_add_of_lt (h.card_expanded hi hnew)
  have hleft : s.registry.length - s.expanded.card = m + 1 := by omega
  have hleft' : s.registry.length - (s.expanded.card + 1) = m := by omega
  rw [work_append, hregistry, hold, work, work, hregistry, hexp, Finset.card_insert_of_notMem hnew, hleft, hleft',
    Nat.succ_mul]
  omega

/-- Every step of the calls keeps this, and less work remains. -/
theorem Working.step {f : Frame} (h : Working t s₀ (f :: rest) s) :
    Working t s₀ ((s.advance f).1 ++ rest) (s.advance f).2 ∧
      (s.advance f).2.work ((s.advance f).1 ++ rest) < s.work (f :: rest) := by
  cases f with
  | loaded i click =>
    refine ⟨⟨{ h.inv with }, fun j hj => ?_, h.registry, h.asked, h.still, h.count⟩, work_lt rfl rfl ?_⟩
    · rcases h.marked j hj with hshown | ⟨click', hin⟩
      · exact .inl (Finset.mem_insert_of_mem hshown)
      · rcases List.mem_cons.mp hin with heq | hin
        · cases heq
          exact .inl (Finset.mem_insert_self _ _)
        · exact .inr ⟨click', List.mem_cons_of_mem _ hin⟩
    · simp [advance, frameCost]
  | done click =>
    have hframes : ∀ (new : List Frame) (i : Nat) (click' : Option Nat),
        .loaded i click' ∈ .done click :: rest → .loaded i click' ∈ new ++ rest := fun new i click' hin => by
      rcases List.mem_cons.mp hin with heq | hin
      · cases heq
      · exact List.mem_append_right new hin
    cases click with
    | none => exact ⟨h.of_pending (hframes []) s.pending, work_lt rfl rfl (by simp [advance, frameCost])⟩
    | some k =>
      refine ⟨h.of_pending (hframes _) _, work_lt rfl rfl ?_⟩
      rw [advance]
      dsimp only
      split <;> simp [frameCost]
  | scan k i =>
    have hframes : ∀ (new : List Frame) (j : Nat) (click : Option Nat),
        .loaded j click ∈ .scan k i :: rest → .loaded j click ∈ new ++ rest := fun new j click hin => by
      rcases List.mem_cons.mp hin with heq | hin
      · cases heq
      · exact List.mem_append_right new hin
    rcases h.inv.scan_cases k i with ⟨hend, heq⟩ | ⟨node, hi, ⟨hskip, heq⟩ |
      ⟨⟨hkids, hexp⟩, ⟨hlist, heq⟩ | ⟨hnew, heq⟩⟩⟩
    · rw [heq]
      exact ⟨h.of_pending (hframes []) s.pending, work_lt rfl rfl (by simp [frameCost])⟩
    · have hlen := (List.getElem?_eq_some_iff.mp hi).1
      rw [heq]
      refine ⟨h.of_pending (hframes _) s.pending, work_lt rfl rfl ?_⟩
      simp only [List.map_singleton, List.sum_singleton, frameCost]
      omega
    · have hlen := (List.getElem?_eq_some_iff.mp hi).1
      rw [heq]
      refine ⟨h.of_opening (hframes _) hlist List.mem_cons_self ⟨_, rfl⟩, h.inv.work_lt hlen hexp rfl rfl ?_⟩
      simp only [List.map_cons, List.map_nil, List.sum_cons, List.sum_nil, frameCost]
      omega
    · have hlen := (List.getElem?_eq_some_iff.mp hi).1
      rw [heq]
      refine ⟨h.of_asking (hframes _) hi hkids hnew (some k) ⟨_, rfl⟩, h.inv.work_lt hlen hexp rfl rfl ?_⟩
      simp only [List.map_singleton, List.sum_singleton, frameCost]
      omega

end Steps
end ProcessView
end Bdtrace
