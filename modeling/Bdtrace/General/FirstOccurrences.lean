import Mathlib.Data.Finset.Insert
import Mathlib.Data.List.Basic

/-! Lists without their later repeats, and the loop that finds them with a set of the keys met so far. -/
namespace FirstOccurrences

variable {α κ κ' : Type*} [DecidableEq κ] [DecidableEq κ']

/-- The elements whose key no earlier element has. -/
def firsts (key : α → κ) : List α → List α
  | [] => []
  | a :: as => a :: (firsts key as).filter fun b => key b ≠ key a

/-- The loop that takes what is not in the set, and puts it there. -/
def unseen (key : α → κ) : Finset κ → List α → List α
  | _, [] => []
  | seen, a :: as => if key a ∈ seen then unseen key seen as else a :: unseen key (insert (key a) seen) as

theorem firsts_subset (key : α → κ) (as : List α) : firsts key as ⊆ as := by
  induction as with
  | nil => exact List.Subset.refl []
  | cons a as ih =>
    intro b hb
    rcases List.mem_cons.mp hb with rfl | hb
    · exact List.mem_cons_self
    · exact List.mem_cons_of_mem a (ih (List.mem_of_mem_filter hb))

/-- Only which keys are equal counts. -/
theorem firsts_congr {key : α → κ} {key' : α → κ'} {as : List α}
    (h : ∀ a ∈ as, ∀ b ∈ as, key b = key a ↔ key' b = key' a) : firsts key as = firsts key' as := by
  induction as with
  | nil => rfl
  | cons a as ih =>
    have hrest := ih fun b hb c hc => h b (List.mem_cons_of_mem a hb) c (List.mem_cons_of_mem a hc)
    rw [firsts, firsts, hrest]
    congr 1
    apply List.filter_congr
    intro b hb
    have hiff := h a List.mem_cons_self b (List.mem_cons_of_mem a (firsts_subset key' as hb))
    exact decide_eq_decide.mpr (not_congr hiff)

/-- The loop leaves out later repeats and what was in the set before it. -/
private theorem unseen_eq (key : α → κ) (seen : Finset κ) (as : List α) :
    unseen key seen as = (firsts key as).filter fun a => key a ∉ seen := by
  induction as generalizing seen with
  | nil => rfl
  | cons a as ih =>
    by_cases ha : key a ∈ seen
    · rw [unseen, if_pos ha, ih, firsts, List.filter_cons_of_neg (by simpa using ha), List.filter_filter]
      apply List.filter_congr
      intro b _
      by_cases hb : key b ∈ seen
      · simp [hb]
      · have hne : key b ≠ key a := fun heq => hb (heq ▸ ha)
        simp [hb, hne]
    · rw [unseen, if_neg ha, ih, firsts, List.filter_cons_of_pos (by simpa using ha), List.filter_filter]
      congr 1
      apply List.filter_congr
      intro b _
      by_cases hb : key b ∈ seen
      · simp [hb]
      · simp [hb]

theorem unseen_empty (key : α → κ) (as : List α) : unseen key ∅ as = firsts key as := by
  rw [unseen_eq]
  exact List.filter_eq_self.mpr fun a _ => decide_eq_true (Finset.notMem_empty _)

/-- Each key has one first occurrence. -/
theorem nodup_firsts (key : α → κ) (as : List α) : ((firsts key as).map key).Nodup := by
  induction as with
  | nil => exact List.nodup_nil
  | cons a as ih =>
    rw [firsts, List.map_cons, List.nodup_cons]
    refine ⟨fun h => ?_, ih.sublist (List.filter_sublist.map key)⟩
    obtain ⟨b, hb, hkey⟩ := List.mem_map.mp h
    exact (by simpa using List.of_mem_filter hb : key b ≠ key a) hkey

theorem mem_map_firsts (key : α → κ) (as : List α) (k : κ) :
    k ∈ (firsts key as).map key ↔ k ∈ as.map key := by
  induction as with
  | nil => rfl
  | cons a as ih =>
    rw [firsts, List.map_cons, List.map_cons, List.mem_cons, List.mem_cons, ← ih]
    by_cases h : k = key a
    · exact iff_of_true (.inl h) (.inl h)
    · apply or_congr_right
      constructor
      · intro hk
        exact (List.filter_sublist.map key).subset hk
      · intro hk
        obtain ⟨b, hb, rfl⟩ := List.mem_map.mp hk
        exact List.mem_map_of_mem (List.mem_filter.mpr ⟨hb, by simpa using h⟩)

end FirstOccurrences
