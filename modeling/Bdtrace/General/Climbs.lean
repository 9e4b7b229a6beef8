import Mathlib.Data.Finset.Card
import Mathlib.Data.List.Chain
import Mathlib.Data.List.Nodup
import Mathlib.Logic.Relation

/-! Climbs along links that may run in circles: a list of what was visited ends them. -/
namespace Climbs
variable {α : Type*}

/-- The elements with a link from `a` upwards, until there is none or a visited one comes again; `none` when the
fuel is too small. -/
def climb [DecidableEq α] (up : α → Option α) : Nat → List α → α → Option (List α)
  | 0, _, _ => none
  | fuel + 1, visited, a =>
    if a ∈ visited then some []
    else
      match up a with
      | none => some []
      | some b => (climb up fuel (a :: visited) b).map (a :: ·)

/-- What a climb has gone through: new elements, each above the one before, up to where nothing new is above. -/
structure Climb (up : α → Option α) (visited : List α) (a : α) (l : List α) : Prop where
  nodup : l.Nodup
  fresh : ∀ x ∈ l, x ∉ visited
  linked : ∀ x ∈ l, (up x).isSome
  start : (l = [] ∧ (a ∈ visited ∨ up a = none)) ∨ l.head? = some a
  steps : l.IsChain fun x y => up x = some y
  reached : ∀ x ∈ l, Relation.ReflTransGen (fun x y => up x = some y) a x
  closed : ∀ x ∈ l, ∀ y, up x = some y → y ∈ l ∨ y ∈ visited ∨ up y = none

variable {up : α → Option α}

private theorem climb_nil {visited : List α} {a : α} (h : a ∈ visited ∨ up a = none) : Climb up visited a [] where
  nodup := List.nodup_nil
  fresh := fun _ hx => absurd hx List.not_mem_nil
  linked := fun _ hx => absurd hx List.not_mem_nil
  start := .inl ⟨rfl, h⟩
  steps := .nil
  reached := fun _ hx => absurd hx List.not_mem_nil
  closed := fun _ hx => absurd hx List.not_mem_nil

private theorem climb_cons {visited : List α} {a b : α} {l : List α} (hnot : a ∉ visited) (hup : up a = some b)
    (h : Climb up (a :: visited) b l) : Climb up visited a (a :: l) where
  nodup := List.nodup_cons.mpr ⟨fun ha => h.fresh a ha List.mem_cons_self, h.nodup⟩
  fresh := by
    intro x hx
    rcases List.mem_cons.mp hx with rfl | hx
    · exact hnot
    · exact fun hin => h.fresh x hx (List.mem_cons_of_mem a hin)
  linked := by
    intro x hx
    rcases List.mem_cons.mp hx with rfl | hx
    · rw [hup]
      rfl
    · exact h.linked x hx
  start := .inr rfl
  steps := by
    apply h.steps.cons
    intro y hy
    rcases h.start with ⟨rfl, -⟩ | hhead
    · cases hy
    · rw [hup, ← hhead]
      exact hy
  reached := by
    intro x hx
    rcases List.mem_cons.mp hx with rfl | hx
    · exact .refl
    · exact .head hup (h.reached x hx)
  closed := by
    -- what was visited with `a` is `a` itself or was visited before
    have hvisited : ∀ y, y ∈ a :: visited ∨ up y = none → y ∈ a :: l ∨ y ∈ visited ∨ up y = none := by
      intro y hy
      rcases hy with hy | hy
      · rcases List.mem_cons.mp hy with rfl | hy
        · exact .inl List.mem_cons_self
        · exact .inr (.inl hy)
      · exact .inr (.inr hy)
    intro x hx y hxy
    rcases List.mem_cons.mp hx with rfl | hx
    · obtain rfl : b = y := Option.some.inj (hup.symm.trans hxy)
      rcases h.start with ⟨-, hstop⟩ | hhead
      · exact hvisited b hstop
      · exact .inl (List.mem_cons_of_mem x (List.mem_of_mem_head? hhead))
    · rcases h.closed x hx y hxy with hin | hstop
      · exact .inl (List.mem_cons_of_mem a hin)
      · exact hvisited y hstop

section Total
variable [DecidableEq α]

/-- Every climb over finitely many links ends, circles or not. -/
theorem climb_total {s : Finset α} (hs : ∀ a, (up a).isSome → a ∈ s) {fuel : Nat} {visited : List α} (a : α)
    (hfuel : (s \ visited.toFinset).card < fuel) : ∃ l, climb up fuel visited a = some l ∧ Climb up visited a l := by
  induction fuel generalizing visited a with
  | zero => exact absurd hfuel (Nat.not_lt_zero _)
  | succ fuel ih =>
    rw [climb]
    by_cases hin : a ∈ visited
    · exact ⟨[], if_pos hin, climb_nil (.inl hin)⟩
    · rw [if_neg hin]
      cases hup : up a with
      | none => exact ⟨[], rfl, climb_nil (.inr hup)⟩
      | some b =>
        have hless : s \ (a :: visited).toFinset ⊂ s \ visited.toFinset := by
          refine Finset.ssubset_iff_of_subset ?_ |>.mpr ⟨a, ?_, ?_⟩
          · apply Finset.sdiff_subset_sdiff subset_rfl
            rw [List.toFinset_cons]
            exact Finset.subset_insert a _
          · exact Finset.mem_sdiff.mpr ⟨hs a (by rw [hup]; rfl), fun h => hin (List.mem_toFinset.mp h)⟩
          · exact fun h => (Finset.mem_sdiff.mp h).2 (List.mem_toFinset.mpr List.mem_cons_self)
        have hcard := Finset.card_lt_card hless
        obtain ⟨l, hl, hclimb⟩ := @ih (a :: visited) b (by omega)
        exact ⟨a :: l, by dsimp only; rw [hl, Option.map_some], climb_cons hin hup hclimb⟩

end Total

/-- A climb that starts with nothing visited lists what is above it as far as there are links. -/
theorem Climb.mem_iff {a : α} {l : List α} (h : Climb up [] a l) (x : α) :
    x ∈ l ↔ (up x).isSome ∧ Relation.ReflTransGen (fun x y => up x = some y) a x := by
  constructor
  · exact fun hx => ⟨h.linked x hx, h.reached x hx⟩
  · rintro ⟨hsome, hreach⟩
    induction hreach with
    | refl =>
      rcases h.start with ⟨-, hvisited | hnone⟩ | hhead
      · cases hvisited
      · rw [hnone] at hsome
        cases hsome
      · exact List.mem_of_mem_head? hhead
    | @tail b c _ hbc ih =>
      have hb : b ∈ l := ih (by rw [hbc]; rfl)
      rcases h.closed b hb c hbc with hin | hvisited | hnone
      · exact hin
      · cases hvisited
      · rw [hnone] at hsome
        cases hsome

end Climbs
