import Std.Data.TreeMap.Lemmas
import Mathlib.Tactic.TypeStar

/-! The keys with a given prefix stand together in lexicographic order, right behind its lower bound. -/
namespace PrefixScan
variable {α : Type*} [Ord α] [Std.LawfulEqOrd α]

private theorem compare_ne_lt_of_prefix {p k : List α} (h : p <+: k) : compare k p ≠ .lt := by
  induction p generalizing k with
  | nil => cases k <;> simp [List.compare_cons_nil]
  | cons x p ih =>
    obtain ⟨s, rfl⟩ := h
    rw [List.cons_append, List.compare_cons_cons, Std.ReflOrd.compare_self]
    exact ih (List.prefix_append p s)

variable [Std.TransOrd α]

/-- A key above `p` without the prefix `p` is above all keys that have it. -/
private theorem compare_lt_of_not_prefix {p k k' : List α} (h : compare k p ≠ .lt) (hk : ¬ p <+: k) (hk' : p <+: k') :
    compare k' k = .lt := by
  induction p generalizing k k' with
  | nil => exact absurd List.nil_prefix hk
  | cons x p ih =>
    obtain ⟨s, rfl⟩ := hk'
    cases k with
    | nil => exact absurd List.compare_nil_cons h
    | cons y k =>
      rw [List.compare_cons_cons] at h
      rw [List.cons_append, List.compare_cons_cons]
      cases hyx : compare y x with
      | lt =>
        rw [hyx] at h
        exact absurd rfl h
      | gt =>
        rw [Std.OrientedOrd.eq_swap, hyx]
        rfl
      | eq =>
        obtain rfl := Std.LawfulEqOrd.eq_of_compare hyx
        rw [hyx] at h ⊢
        apply ih h
        · exact fun hp => hk (List.cons_prefix_cons.mpr ⟨rfl, hp⟩)
        · exact List.prefix_append p s

variable [DecidableEq α]

private theorem takeWhile_eq_filter (p : List α) {l : List (List α)} (hsorted : l.Pairwise fun a b => compare a b = .lt)
    (hl : ∀ k ∈ l, compare k p ≠ .lt) : l.takeWhile p.isPrefixOf = l.filter p.isPrefixOf := by
  induction l with
  | nil => rfl
  | cons k l ih =>
    obtain ⟨hk, hsorted⟩ := List.pairwise_cons.mp hsorted
    rw [List.takeWhile_cons, List.filter_cons]
    split
    · rw [ih hsorted fun k' h => hl k' (List.mem_cons_of_mem _ h)]
    · rename_i hp
      rw [List.isPrefixOf_iff_prefix] at hp
      symm
      apply List.filter_eq_nil_iff.mpr
      intro k' hk' hp'
      have hlt := compare_lt_of_not_prefix (hl k List.mem_cons_self) hp (List.isPrefixOf_iff_prefix.mp hp')
      rw [Std.OrientedOrd.eq_swap, hk k' hk'] at hlt
      cases hlt

/-- The scan from the lower bound of `p` to the first key without it finds all keys with it. -/
theorem scan_eq_filter (p : List α) {l : List (List α)} (hsorted : l.Pairwise fun a b => compare a b = .lt) :
    (l.dropWhile fun k => compare k p == .lt).takeWhile p.isPrefixOf = l.filter p.isPrefixOf := by
  induction l with
  | nil => rfl
  | cons k l ih =>
    obtain ⟨hk, hrest⟩ := List.pairwise_cons.mp hsorted
    rw [List.dropWhile_cons]
    split
    · rename_i hlt
      have hnot : ¬ p.isPrefixOf k = true := fun hp =>
        compare_ne_lt_of_prefix (List.isPrefixOf_iff_prefix.mp hp) (by simpa using hlt)
      rw [ih hrest, List.filter_cons_of_neg hnot]
    · rename_i hge
      apply takeWhile_eq_filter p hsorted
      intro k' hk' hlt
      rcases List.mem_cons.mp hk' with rfl | hk'
      · exact hge (by simpa using hlt)
      · exact hge (by simpa using Std.TransCmp.lt_trans (hk k' hk') hlt)

end PrefixScan
