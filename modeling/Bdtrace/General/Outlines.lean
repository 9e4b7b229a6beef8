import Bdtrace.General.StoppableLoops
import Bdtrace.General.Tours

/-! Outlines of trees: each node with its level, before what is below it. The levels alone tell the parents. -/
namespace Outlines
open Worklist (Child Reaches)
open Tours (subtree subtree_eq mem_subtree)

variable {α : Type}

/-- The nodes from `a` down, which is at level `d`; `none` when the fuel is too small. -/
def outline (next : α → List α) : Nat → Nat → α → Option (List (α × Nat))
  | 0, _, _ => none
  | fuel + 1, d, a => ((next a).mapM (outline next fuel (d + 1))).map fun parts => (a, d) :: parts.flatten

/-- The last entry before that is one level up. -/
def parentOf (before : List (α × Nat)) (level : Nat) : Option (α × Nat) := before.reverse.find? fun e => e.2 + 1 = level

variable {next : α → List α}

/-- What holds of a node whenever it holds of its children holds of every outline. -/
private theorem outline_induct {P : Nat → α → List (α × Nat) → Prop}
    (node : ∀ d a part, (∀ b ∈ next a, P (d + 1) b (part b)) → P d a ((a, d) :: (next a).flatMap part)) {fuel d : Nat}
    {a : α} {l : List (α × Nat)} (h : outline next fuel d a = some l) : P d a l := by
  induction fuel generalizing d a l with
  | zero => cases h
  | succ fuel ih =>
    rw [outline, Option.map_eq_some_iff] at h
    obtain ⟨parts, hparts, rfl⟩ := h
    have hsome := StoppableLoops.isSome_mapM.mp (Option.isSome_of_eq_some hparts)
    have hall : ∀ b ∈ next a, outline next fuel (d + 1) b = some ((outline next fuel (d + 1) b).getD []) := by
      intro b hb
      obtain ⟨part, hpart⟩ := Option.isSome_iff_exists.mp (hsome b hb)
      rw [hpart, Option.getD_some]
    rw [StoppableLoops.mapM_eq_some hall, Option.some.injEq] at hparts
    rw [← hparts, ← List.flatMap_def]
    exact node d a _ fun b hb => ih (hall b hb)

/-- The nodes of an outline are those of the subtree. -/
theorem map_fst_outline (hwf : WellFounded (Child next)) {fuel d : Nat} {a : α} {l : List (α × Nat)}
    (h : outline next fuel d a = some l) : l.map (·.1) = subtree hwf a := by
  refine outline_induct (P := fun _ a l => l.map (·.1) = subtree hwf a) ?_ h
  intro d a part hpart
  rw [List.map_cons, List.map_flatMap, subtree_eq]
  congr 1
  apply List.flatMap_congr
  exact hpart

/-- The levels in an outline are the depths of its nodes, counted from `a`. -/
theorem level_eq {depth : α → Nat} (hdepth : ∀ p, ∀ c ∈ next p, depth c = depth p + 1) {fuel d : Nat} {a : α}
    {l : List (α × Nat)} (h : outline next fuel d a = some l) : ∀ e ∈ l, e.2 + depth a = d + depth e.1 := by
  refine outline_induct (P := fun d a l => ∀ e ∈ l, e.2 + depth a = d + depth e.1) ?_ h
  intro d a part hpart e he
  rcases List.mem_cons.mp he with rfl | he
  · rfl
  · obtain ⟨b, hb, he⟩ := List.mem_flatMap.mp he
    have hlevel := hpart b hb e he
    rw [hdepth a b hb] at hlevel
    omega

theorem outline_total (hwf : WellFounded (Child next)) {fuel : Nat} (d : Nat) {a : α}
    (hfuel : (subtree hwf a).length ≤ fuel) : (outline next fuel d a).isSome := by
  induction fuel generalizing d a with
  | zero =>
    rw [subtree_eq] at hfuel
    simp at hfuel
  | succ fuel ih =>
    rw [outline, Option.isSome_map]
    apply StoppableLoops.isSome_mapM.mpr
    intro b hb
    apply ih
    rw [subtree_eq, List.length_cons] at hfuel
    have hpart : (subtree hwf b).length ≤ ((next a).flatMap (subtree hwf)).length :=
      (List.sublist_flatten_of_mem (List.mem_map_of_mem hb)).length_le
    omega

/-- Only what is below the node counts. -/
theorem outline_congr {next' : α → List α} {fuel d : Nat} {a : α} (h : ∀ x, Reaches next a x → next' x = next x) :
    outline next' fuel d a = outline next fuel d a := by
  induction fuel generalizing d a with
  | zero => rfl
  | succ fuel ih =>
    rw [outline, outline, h a .refl]
    congr 1
    apply StoppableLoops.mapM_congr
    intro b hb
    exact ih fun x hx => h x (.head hb hx)

/-- An entry of the outlines of the children stands in one of them. -/
theorem flatMap_split {β γ : Type} {f : β → List γ} {l : List β} {xs ys : List γ} {e : γ}
    (h : l.flatMap f = xs ++ e :: ys) :
    ∃ bs b cs pre post, l = bs ++ b :: cs ∧ f b = pre ++ e :: post ∧ xs = bs.flatMap f ++ pre := by
  induction l generalizing xs with
  | nil =>
    rw [List.flatMap_nil] at h
    exact absurd (h ▸ List.mem_append_right xs List.mem_cons_self) List.not_mem_nil
  | cons b l ih =>
    rw [List.flatMap_cons] at h
    rcases List.append_eq_append_iff.mp h with ⟨mid, hxs, hrest⟩ | ⟨mid, hpart, hrest⟩
    · obtain ⟨bs, c, cs, pre, post, hl, hc, hmid⟩ := ih hrest
      refine ⟨b :: bs, c, cs, pre, post, by rw [hl, List.cons_append], hc, ?_⟩
      rw [hxs, hmid, List.flatMap_cons, List.append_assoc]
    · cases mid with
      | nil =>
        obtain ⟨bs, c, cs, pre, post, hl, hc, hmid⟩ := @ih [] (by simpa using hrest.symm)
        refine ⟨b :: bs, c, cs, pre, post, by rw [hl, List.cons_append], hc, ?_⟩
        rw [List.flatMap_cons, List.append_assoc, ← hmid, hpart, List.append_nil, List.append_nil]
      | cons e' mid =>
        obtain ⟨rfl, -⟩ := List.cons.inj hrest
        exact ⟨[], b, l, xs, mid, rfl, hpart, rfl⟩

/-- The last entry before a node that is one level up is its parent. -/
theorem outline_parent {fuel d : Nat} {a : α} {l : List (α × Nat)} (h : outline next fuel d a = some l)
    {before after : List (α × Nat)} {e : α × Nat} (hl : l = before ++ e :: after) (he : d < e.2) :
    ∃ p, parentOf before e.2 = some p ∧ e.1 ∈ next p.1 := by
  have hall : (∃ rest, l = (a, d) :: rest ∧ ∀ e ∈ rest, d < e.2) ∧
      ∀ before e after, l = before ++ e :: after → d < e.2 → ∃ p, parentOf before e.2 = some p ∧ e.1 ∈ next p.1 := by
    refine outline_induct (P := fun d a l => (∃ rest, l = (a, d) :: rest ∧ ∀ e ∈ rest, d < e.2) ∧
      ∀ before e after, l = before ++ e :: after → d < e.2 → ∃ p, parentOf before e.2 = some p ∧ e.1 ∈ next p.1) ?_ h
    clear h hl he
    intro d a part hpart
    have hbelow : ∀ b ∈ next a, ∀ e ∈ part b, d < e.2 := by
      intro b hb e he
      obtain ⟨rest, hrest, hdeeper⟩ := (hpart b hb).1
      rw [hrest] at he
      rcases List.mem_cons.mp he with rfl | he
      · exact Nat.lt_succ_self d
      · exact Nat.lt_of_succ_lt (hdeeper e he)
    refine ⟨⟨_, rfl, fun e he => ?_⟩, ?_⟩
    · obtain ⟨b, hb, he⟩ := List.mem_flatMap.mp he
      exact hbelow b hb e he
    · intro before e after hsplit he
      cases before with
      | nil =>
        obtain ⟨rfl, -⟩ := List.cons.inj hsplit
        exact absurd he (lt_irrefl d)
      | cons first before =>
        obtain ⟨rfl, hkids⟩ := List.cons.inj hsplit
        obtain ⟨bs, b, cs, pre, post, hnext, hb, rfl⟩ := flatMap_split hkids
        have hmem : b ∈ next a := hnext ▸ List.mem_append_right bs List.mem_cons_self
        obtain ⟨⟨rest, hrest, hdeeper⟩, hparent⟩ := hpart b hmem
        have hsplit' := hb.symm.trans hrest
        cases pre with
        | nil =>
          -- the child itself, before which there are only siblings with what is below them
          obtain ⟨rfl, -⟩ := List.cons.inj hsplit'
          have hnone : (bs.flatMap part).reverse.find? (fun e => decide (e.2 + 1 = d + 1)) = none := by
            apply List.find?_eq_none.mpr
            intro e' he'
            obtain ⟨c, hc, he'⟩ := List.mem_flatMap.mp (List.mem_reverse.mp he')
            have hlevel := hbelow c (hnext ▸ List.mem_append_left _ hc) e' he'
            simp only [decide_eq_true_eq]
            omega
          refine ⟨(a, d), ?_, hmem⟩
          rw [parentOf, List.append_nil, List.reverse_cons, List.find?_append, hnone, Option.none_or]
          simp
        | cons first' pre =>
          obtain ⟨rfl, hbelow'⟩ := List.cons.inj hsplit'
          have hlevel := hdeeper e (hbelow' ▸ List.mem_append_right pre List.mem_cons_self)
          obtain ⟨p, hp, hin⟩ := hparent _ e post hb hlevel
          refine ⟨p, ?_, hin⟩
          rw [parentOf] at hp ⊢
          rw [← List.cons_append, List.reverse_append, List.find?_append, hp]
          rfl
  exact hall.2 before e after hl he

end Outlines
