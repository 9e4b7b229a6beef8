import Bdtrace.General.Worklist
import Mathlib.Data.List.Infix
import Mathlib.Data.List.Nodup

/-! Tours through forests. A node is entered before all that is below it and left after all of it, so that the
positions of these two events tell what is below what. -/
namespace Tours
open Worklist (Child Reaches child_attach)

variable {α : Type*} {next : α → List α}

/-- No node is met twice: child lists repeat nothing, a node has one parent at most, and none is below itself. -/
structure IsForest (next : α → List α) : Prop where
  wellFounded : WellFounded (Child next)
  nodup : ∀ a, (next a).Nodup
  parent : ∀ a b c, c ∈ next a → c ∈ next b → a = b

/-- The events of entering (`true`) and leaving (`false`) the nodes of a subtree. -/
noncomputable def tour (hwf : WellFounded (Child next)) : α → List (α × Bool) :=
  hwf.fix fun a ih => (a, true) :: ((next a).attach.flatMap (fun b => ih b.1 (child_attach b)) ++ [(a, false)])

private theorem tour_eq (hwf : WellFounded (Child next)) (a : α) :
    tour hwf a = (a, true) :: ((next a).flatMap (tour hwf) ++ [(a, false)]) := by
  rw [tour, hwf.fix_eq]
  have hattach : (next a).attach.flatMap (fun b => tour hwf b.1) = (next a).flatMap (tour hwf) := by
    rw [List.flatMap_def, List.flatMap_def, List.attach_map_val (f := tour hwf)]
  exact congrArg (fun l => (a, true) :: (l ++ [(a, false)])) hattach

theorem mem_tour (hwf : WellFounded (Child next)) (a : α) (e : α × Bool) : e ∈ tour hwf a ↔ Reaches next a e.1 := by
  induction a using hwf.induction with
  | _ a ih =>
    rw [tour_eq, List.mem_cons, List.mem_append, List.mem_flatMap, List.mem_singleton]
    constructor
    · rintro (rfl | ⟨b, hb, he⟩ | rfl)
      · exact .refl
      · exact .head hb ((ih b hb).mp he)
      · exact .refl
    · intro h
      rcases h.cases_head with heq | ⟨b, hb, hreach⟩
      · obtain ⟨x, entering⟩ := e
        obtain rfl : a = x := heq
        cases entering with
        | true => exact .inl rfl
        | false => exact .inr (.inr rfl)
      · exact .inr (.inl ⟨b, hb, (ih b hb).mpr hreach⟩)

/-- The tour of what is below a node stands in its own tour without a gap. -/
private theorem tour_contiguous (hwf : WellFounded (Child next)) {a b : α} (h : Reaches next a b) :
    tour hwf b <:+: tour hwf a := by
  induction h using Relation.ReflTransGen.head_induction_on with
  | refl => exact List.infix_rfl
  | head hstep _ ih =>
    apply ih.trans
    rename_i a c _
    obtain ⟨before, after, hnext⟩ := List.append_of_mem hstep
    rw [tour_eq hwf a, hnext, List.flatMap_append, List.flatMap_cons]
    exact ⟨(a, true) :: before.flatMap (tour hwf), after.flatMap (tour hwf) ++ [(a, false)], by simp⟩

namespace IsForest
variable (h : IsForest next)
include h

theorem acyclic (a : α) : ¬ Relation.TransGen (fun a b => b ∈ next a) a a := fun hcycle =>
  (Worklist.weight_lt h.wellFounded hcycle).false

/-- Two children of one node are not above each other. -/
private theorem children_apart {a b c : α} (hb : b ∈ next a) (hc : c ∈ next a) (hreach : Reaches next b c) : b = c := by
  rcases hreach.cases_tail with heq | ⟨d, hbd, hdc⟩
  · exact heq.symm
  · obtain rfl := h.parent d a c hdc hc
    exact absurd (Relation.TransGen.head' hb hbd) (h.acyclic d)

/-- Nodes that are not above each other have tours without a common event. -/
theorem nodup_tours {roots : List α} (hnd : roots.Nodup) (hapart : ∀ a ∈ roots, ∀ b ∈ roots, Reaches next a b → a = b) :
    (roots.flatMap (tour h.wellFounded)).Nodup := by
  have hsplit : ∀ roots : List α, roots.Nodup → (∀ a ∈ roots, ∀ b ∈ roots, Reaches next a b → a = b) →
      (∀ a ∈ roots, (tour h.wellFounded a).Nodup) → (roots.flatMap (tour h.wellFounded)).Nodup :=
        fun roots hnd hapart htour => by
    refine List.nodup_flatMap.mpr ⟨htour, hnd.imp_of_mem fun {a b} ha hb hne e hea heb => hne ?_⟩
    rcases Worklist.Reaches.comparable h.parent ((mem_tour _ a e).mp hea) ((mem_tour _ b e).mp heb) with hab | hba
    · exact hapart a ha b hb hab
    · exact (hapart b hb a ha hba).symm
  have htour : ∀ a, (tour h.wellFounded a).Nodup := fun a => by
    induction a using h.wellFounded.induction with
    | _ a ih =>
      have hkids := hsplit (next a) (h.nodup a) (fun b hb c hc => h.children_apart hb hc) ih
      have hself : ∀ entering, (a, entering) ∉ (next a).flatMap (tour h.wellFounded) := fun entering hmem => by
        obtain ⟨b, hb, hba⟩ := List.mem_flatMap.mp hmem
        exact h.acyclic a (Relation.TransGen.head' hb ((mem_tour _ b _).mp hba))
      rw [tour_eq, List.nodup_cons, List.mem_append, List.nodup_append]
      refine ⟨fun hmem => ?_, hkids, List.nodup_singleton _, fun e he e' he' heq => ?_⟩
      · rcases hmem with hmem | hmem
        · exact hself true hmem
        · cases (Prod.mk.inj (List.mem_singleton.mp hmem)).2
      · obtain rfl := List.mem_singleton.mp he'
        exact hself false (heq ▸ he)
  exact hsplit roots hnd hapart fun a _ => htour a

end IsForest

/-- The nodes of a subtree in the order of entering them. -/
noncomputable def subtree (hwf : WellFounded (Child next)) (a : α) : List α := ((tour hwf a).filter (·.2)).map (·.1)

theorem subtree_eq (hwf : WellFounded (Child next)) (a : α) : subtree hwf a = a :: (next a).flatMap (subtree hwf) := by
  rw [subtree, tour_eq]
  simp only [List.filter_cons, if_true, List.filter_append, List.filter_flatMap, List.map_cons,
    List.map_flatMap, List.filter_nil, Bool.false_eq_true, if_false, List.append_nil]
  rfl

theorem mem_subtree (hwf : WellFounded (Child next)) (a b : α) : b ∈ subtree hwf a ↔ Reaches next a b := by
  simp [subtree, mem_tour]

/-- Nodes that are not above each other have subtrees without a common node. -/
theorem IsForest.nodup_subtrees (h : IsForest next) {roots : List α} (hnd : roots.Nodup)
    (hapart : ∀ a ∈ roots, ∀ b ∈ roots, Reaches next a b → a = b) : (roots.flatMap (subtree h.wellFounded)).Nodup := by
  have hentered : roots.flatMap (subtree h.wellFounded) =
      ((roots.flatMap (tour h.wellFounded)).filter (·.2)).map (·.1) := by
    rw [List.filter_flatMap, List.map_flatMap]
    rfl
  rw [hentered]
  refine List.Nodup.map_on (fun e he e' he' heq => Prod.ext heq ?_) ((h.nodup_tours hnd hapart).filter _)
  rw [(List.mem_filter.mp he).2, (List.mem_filter.mp he').2]

theorem IsForest.nodup_subtree (h : IsForest next) (a : α) : (subtree h.wellFounded a).Nodup := by
  have hself := h.nodup_subtrees (List.nodup_singleton a) fun b hb c hc _ => by
    rw [List.mem_singleton.mp hb, List.mem_singleton.mp hc]
  rwa [List.flatMap_singleton] at hself

/-- A node of the subtrees stands before its children. -/
theorem parent_first (hwf : WellFounded (Child next)) {roots : List α} {a b : α} (ha : a ∈ roots.flatMap (subtree hwf))
    (hb : b ∈ next a) : [a, b].Sublist (roots.flatMap (subtree hwf)) := by
  obtain ⟨root, hroot, hmem⟩ := List.mem_flatMap.mp ha
  have hbelow : subtree hwf a <:+: subtree hwf root :=
    ((tour_contiguous hwf ((mem_subtree hwf root a).mp hmem)).filter _).map _
  have hinfix : subtree hwf root <:+: roots.flatMap (subtree hwf) :=
    List.infix_of_mem_flatten (List.mem_map_of_mem hroot)
  refine List.Sublist.trans ?_ (hbelow.trans hinfix).sublist
  rw [subtree_eq]
  apply List.Sublist.cons_cons
  rw [List.singleton_sublist]
  exact List.mem_flatMap.mpr ⟨b, hb, (mem_subtree hwf b b).mpr .refl⟩

/-! ### The stack that makes a tour -/

/-- The popped events: entering a node pushes its leaving and on top of that the entering of its children. -/
def unwind (next : α → List α) : Nat → List (α × Bool) → Option (List (α × Bool))
  | _, [] => some []
  | 0, _ :: _ => none
  | fuel + 1, (a, true) :: stack =>
    (unwind next fuel ((next a).map (·, true) ++ (a, false) :: stack)).map ((a, true) :: ·)
  | fuel + 1, (a, false) :: stack => (unwind next fuel stack).map ((a, false) :: ·)

/-- The events that come of an event on the stack. -/
noncomputable def expand (hwf : WellFounded (Child next)) (e : α × Bool) : List (α × Bool) :=
  if e.2 then tour hwf e.1 else [e]

theorem flatMap_expand (hwf : WellFounded (Child next)) (nodes : List α) :
    (nodes.map (·, true)).flatMap (expand hwf) = nodes.flatMap (tour hwf) := by
  rw [List.flatMap_map]
  rfl

theorem unwind_eq (hwf : WellFounded (Child next)) {fuel : Nat} {stack : List (α × Bool)}
    (h : (stack.flatMap (expand hwf)).length ≤ fuel) : unwind next fuel stack = some (stack.flatMap (expand hwf)) := by
  induction fuel generalizing stack with
  | zero =>
    rcases stack with _ | ⟨⟨a, _ | _⟩, stack⟩
    · rfl
    · simp [expand] at h
    · rw [List.flatMap_cons, expand, if_pos rfl, tour_eq] at h
      simp at h
  | succ fuel ih =>
    rcases stack with _ | ⟨⟨a, _ | _⟩, stack⟩
    · rfl
    · have hpop : ((a, false) :: stack).flatMap (expand hwf) = (a, false) :: stack.flatMap (expand hwf) := rfl
      rw [hpop, List.length_cons] at h
      rw [unwind, ih (Nat.le_of_succ_le_succ h), hpop, Option.map_some]
    · have hpop : ((a, true) :: stack).flatMap (expand hwf) =
          (a, true) :: ((next a).map (·, true) ++ (a, false) :: stack).flatMap (expand hwf) := by
        rw [List.flatMap_cons, List.flatMap_append, flatMap_expand, List.flatMap_cons]
        simp [expand, tour_eq hwf a]
      rw [hpop, List.length_cons] at h
      rw [unwind, ih (Nat.le_of_succ_le_succ h), hpop, Option.map_some]

/-! ### Positions -/

section
variable [DecidableEq α]

private theorem idxOf_middle {β : Type*} [BEq β] [LawfulBEq β] {before after : List β} {e : β}
    (hnd : (before ++ e :: after).Nodup) :
    (before ++ e :: after).idxOf e = before.length := by
  have hnot : e ∉ before := fun he => (List.nodup_append.mp hnd).2.2 e he e List.mem_cons_self rfl
  rw [List.idxOf_append_of_notMem hnot, List.idxOf_cons_self, Nat.add_zero]

/-- Without duplicates the elements of a part are those at its positions. -/
private theorem mem_part_iff {β : Type*} [BEq β] [LawfulBEq β] {before part after : List β}
    (hnd : (before ++ (part ++ after)).Nodup) (e : β) :
    e ∈ part ↔ before.length ≤ (before ++ (part ++ after)).idxOf e ∧
      (before ++ (part ++ after)).idxOf e < before.length + part.length := by
  obtain ⟨-, -, hapart⟩ := List.nodup_append.mp hnd
  by_cases hb : e ∈ before
  · have hlt := List.idxOf_lt_length_of_mem hb
    rw [List.idxOf_append_of_mem hb]
    exact iff_of_false (fun hp => hapart e hb e (List.mem_append_left _ hp) rfl) (by omega)
  · rw [List.idxOf_append_of_notMem hb]
    by_cases hp : e ∈ part
    · have hlt := List.idxOf_lt_length_of_mem hp
      rw [List.idxOf_append_of_mem hp]
      exact iff_of_true hp (by omega)
    · rw [List.idxOf_append_of_notMem hp]
      exact iff_of_false hp (by omega)

variable {roots : List α}

/-- Where the tour of a node stands, and where its two events do. -/
private theorem tour_position (hwf : WellFounded (Child next)) (hnd : (roots.flatMap (tour hwf)).Nodup)
    {a : α} {entering : Bool}
    (ha : (a, entering) ∈ roots.flatMap (tour hwf)) :
    ∃ before after, roots.flatMap (tour hwf) = before ++ (tour hwf a ++ after) ∧
      (roots.flatMap (tour hwf)).idxOf (a, true) = before.length ∧
      (roots.flatMap (tour hwf)).idxOf (a, false) + 1 = before.length + (tour hwf a).length := by
  obtain ⟨root, hroot, hmem⟩ := List.mem_flatMap.mp ha
  have hinfix : tour hwf root <:+: roots.flatMap (tour hwf) := List.infix_of_mem_flatten (List.mem_map_of_mem hroot)
  obtain ⟨before, after, hsplit⟩ := (tour_contiguous hwf ((mem_tour hwf root (a, entering)).mp hmem)).trans hinfix
  rw [List.append_assoc] at hsplit
  refine ⟨before, after, hsplit.symm, ?_, ?_⟩
  · have henter : roots.flatMap (tour hwf) = before ++ (a, true) ::
        ((next a).flatMap (tour hwf) ++ [(a, false)] ++ after) := by
      rw [← hsplit, tour_eq, List.cons_append]
    rw [henter] at hnd ⊢
    exact idxOf_middle hnd
  · have hleave : roots.flatMap (tour hwf) =
        (before ++ (a, true) :: (next a).flatMap (tour hwf)) ++ (a, false) :: after := by
      rw [← hsplit, tour_eq]
      simp
    rw [hleave] at hnd ⊢
    rw [idxOf_middle hnd, tour_eq]
    simp only [List.length_append, List.length_cons, List.length_nil]
    omega

/-- In the tours of a forest `b` is below `a` exactly when its events stand between those of `a`. -/
theorem reaches_iff_between (hwf : WellFounded (Child next)) (hnd : (roots.flatMap (tour hwf)).Nodup) {a b : α}
    (ha : (a, true) ∈ roots.flatMap (tour hwf)) (hb : (b, true) ∈ roots.flatMap (tour hwf)) :
    Reaches next a b ↔
      (roots.flatMap (tour hwf)).idxOf (a, true) ≤ (roots.flatMap (tour hwf)).idxOf (b, true) ∧
      (roots.flatMap (tour hwf)).idxOf (b, false) ≤ (roots.flatMap (tour hwf)).idxOf (a, false) := by
  obtain ⟨beforeB, afterB, -, henterB, hleaveB⟩ := tour_position hwf hnd hb
  obtain ⟨before, after, hsplit, henter, hleave⟩ := tour_position hwf hnd ha
  have hpart : ∀ entering, (Reaches next a b ↔
      before.length ≤ (roots.flatMap (tour hwf)).idxOf (b, entering) ∧
        (roots.flatMap (tour hwf)).idxOf (b, entering) < before.length + (tour hwf a).length) := fun entering => by
    rw [← mem_tour hwf a (b, entering)]
    rw [hsplit] at hnd ⊢
    exact mem_part_iff hnd (b, entering)
  have hlen : 0 < (tour hwf b).length := by
    rw [tour_eq]
    exact Nat.succ_pos _
  constructor
  · intro hreach
    obtain ⟨hlow, -⟩ := (hpart true).mp hreach
    obtain ⟨-, hhigh⟩ := (hpart false).mp hreach
    omega
  · rintro ⟨hlow, hhigh⟩
    exact (hpart true).mpr (by omega)

end
end Tours
