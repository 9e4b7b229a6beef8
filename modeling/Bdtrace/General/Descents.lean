import Mathlib.Data.Finset.Card
import Mathlib.Data.List.Nodup
import Mathlib.Logic.Relation

/-! Descents from element to element. Where no element has two parents, a descent from one that has none never
meets an element twice, whatever cycles there are elsewhere. -/
namespace Descents
variable {α : Type*} (pick : α → Option α)

/-- The elements from `a` down to one below which there is none, or `none` when the fuel is too small. -/
def descend : Nat → α → Option (List α)
  | 0, _ => none
  | fuel + 1, a =>
    match pick a with
    | none => some [a]
    | some b => (descend fuel b).map (a :: ·)

/-- What a descent that ends has gone through. -/
structure Descent (a : α) (path : List α) : Prop where
  head : path.head? = some a
  steps : path.IsChain fun b c => pick b = some c
  last : ∀ b ∈ path.getLast?, pick b = none

variable {pick}

theorem descent_of_descend {fuel : Nat} {a : α} {path : List α} (h : descend pick fuel a = some path) :
    Descent pick a path := by
  induction fuel generalizing a path with
  | zero => cases h
  | succ fuel ih =>
    rw [descend] at h
    split at h
    · rename_i hend
      obtain rfl := Option.some.inj h
      refine ⟨rfl, .singleton a, fun b hb => ?_⟩
      obtain rfl : a = b := by simpa using hb
      exact hend
    · rename_i b hb
      obtain ⟨rest, hrest, rfl⟩ := Option.map_eq_some_iff.mp h
      obtain ⟨hhead, hsteps, hlast⟩ := ih hrest
      cases rest with
      | nil => cases hhead
      | cons c rest =>
        obtain rfl : c = b := by simpa using hhead
        exact ⟨rfl, hsteps.cons_cons hb, fun x hx => hlast x (by simpa using hx)⟩

variable {rel : α → α → Prop}

/-- The cycles below an element with a unique way up lead back to it. -/
theorem cycle_above (hparent : ∀ a b c, rel a c → rel b c → a = b) {root a : α} (h : Relation.ReflTransGen rel root a)
    (ha : Relation.TransGen rel a a) : Relation.TransGen rel root root := by
  induction h with
  | refl => exact ha
  | tail _ hbc ih =>
    obtain ⟨b', hcb', hb'c⟩ := Relation.TransGen.tail'_iff.mp ha
    obtain rfl := hparent _ _ _ hbc hb'c
    exact ih (Relation.TransGen.head' hbc hcb')

/-- Below an element without a parent there is no cycle. -/
private theorem no_cycle_below (hparent : ∀ a b c, rel a c → rel b c → a = b) {root a : α} (hroot : ∀ b, ¬ rel b root)
    (h : Relation.ReflTransGen rel root a) : ¬ Relation.TransGen rel a a := by
  intro ha
  obtain ⟨b, -, hb⟩ := Relation.TransGen.tail'_iff.mp (cycle_above hparent h ha)
  exact hroot b hb

/-- A descent from an element without a parent ends, and lists no element twice. -/
theorem descend_total {s : Finset α} (hpick : ∀ a ∈ s, ∀ b, pick a = some b → rel a b)
    (hparent : ∀ a b c, rel a c → rel b c → a = b)
    (hs : ∀ a b, rel a b → b ∈ s) {root : α} (hroot : ∀ b, ¬ rel b root) (hmem : root ∈ s) {fuel : Nat}
    (hfuel : s.card ≤ fuel) :
    ∃ path, descend pick fuel root = some path ∧ path.Nodup ∧ ∀ b ∈ path, Relation.ReflTransGen rel root b := by
  classical
  -- `above` are the elements that the descent has left behind, all of them above `a`
  have hrun : ∀ (fuel : Nat) (a : α) (above : Finset α), above ⊆ s → a ∈ s → (∀ b ∈ above, Relation.TransGen rel b a) →
      Relation.ReflTransGen rel root a → s.card ≤ above.card + fuel →
      ∃ path, descend pick fuel a = some path ∧ path.Nodup ∧ (∀ b ∈ path, Relation.ReflTransGen rel a b) := by
    intro fuel
    induction fuel with
    | zero =>
      intro a above hsub hin habove hreach hcard
      have hnot : a ∉ above := fun h => no_cycle_below hparent hroot hreach (habove a h)
      have hle : (insert a above).card ≤ s.card := Finset.card_le_card (Finset.insert_subset hin hsub)
      rw [Finset.card_insert_of_notMem hnot] at hle
      omega
    | succ fuel ih =>
      intro a above hsub hin habove hreach hcard
      have hnot : a ∉ above := fun h => no_cycle_below hparent hroot hreach (habove a h)
      cases hb : pick a with
      | none =>
        refine ⟨[a], by simp only [descend, hb], List.nodup_singleton a, fun b hb => ?_⟩
        rw [List.mem_singleton.mp hb]
      | some b =>
        have hab := hpick a hin b hb
        have hbelow : ∀ c ∈ insert a above, Relation.TransGen rel c b := by
          intro c hc
          rcases Finset.mem_insert.mp hc with rfl | hc
          · exact .single hab
          · exact (habove c hc).tail hab
        have hcard' : s.card ≤ (insert a above).card + fuel := by
          rw [Finset.card_insert_of_notMem hnot]
          omega
        obtain ⟨path, hpath, hnd, hpaths⟩ := ih b (insert a above) (Finset.insert_subset hin hsub) (hs a b hab) hbelow
          (hreach.tail hab) hcard'
        refine ⟨a :: path, by simp only [descend, hb, hpath, Option.map_some], ?_, fun c hc => ?_⟩
        · refine List.nodup_cons.mpr ⟨fun ha => ?_, hnd⟩
          exact no_cycle_below hparent hroot hreach (Relation.TransGen.head' hab (hpaths a ha))
        · rcases List.mem_cons.mp hc with rfl | hc
          · exact .refl
          · exact .head hab (hpaths c hc)
  exact hrun fuel root ∅ (Finset.empty_subset s) hmem (fun b hb => absurd hb (Finset.notMem_empty b)) .refl
    (by simpa using hfuel)

end Descents
