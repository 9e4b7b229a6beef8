import Mathlib.Order.Cover
import Mathlib.Data.List.Lex
import Mathlib.Data.Char

/-! Words in dictionary order: the words that begin with a given word form an interval. -/
namespace PrefixIntervals

variable {α : Type*} [LinearOrder α] {a b : α}

private theorem singleton_le_cons {c : α} {l : List α} : [a] ≤ c :: l ↔ a ≤ c := by
  rw [← not_lt, ← not_lt, List.cons_lt_cons_iff]
  simp only [List.not_lt_nil, and_false, or_false]

private theorem cons_lt_singleton {c : α} {l : List α} : c :: l < [b] ↔ c < b := by
  simp only [List.cons_lt_cons_iff, List.not_lt_nil, and_false, or_false]

/-- When `b` comes next after `a`, the words from `p ++ [a]` up to `p ++ [b]` are those that begin with `p ++ [a]`. -/
theorem between_iff (hcover : a ⋖ b) (p l : List α) :
    p ++ [a] ≤ l ∧ l < p ++ [b] ↔ p ++ [a] <+: l := by
  induction p generalizing l with
  | nil =>
    cases l with
    | nil => simp
    | cons c l =>
      rw [List.nil_append, List.nil_append, singleton_le_cons, cons_lt_singleton, List.cons_prefix_cons]
      constructor
      · intro ⟨hac, hcb⟩
        exact ⟨hac.eq_of_not_lt fun hlt => hcover.2 hlt hcb, List.nil_prefix⟩
      · rintro ⟨rfl, -⟩
        exact ⟨le_rfl, hcover.lt⟩
  | cons d p ih =>
    cases l with
    | nil => simp
    | cons c l =>
      rw [List.cons_append, List.cons_append, List.cons_prefix_cons, ← ih, ← not_lt, ← not_lt, List.cons_lt_cons_iff,
        List.cons_lt_cons_iff, not_or, not_lt]
      constructor
      · intro ⟨⟨hdc, hrest⟩, hcd⟩
        have heq : c = d := hcd.elim (fun h => absurd hdc (not_le.mpr h)) (·.1)
        subst heq
        exact ⟨rfl, fun h => hrest ⟨rfl, h⟩, hcd.resolve_left (lt_irrefl c) |>.2⟩
      · rintro ⟨rfl, hle, hlt⟩
        exact ⟨⟨le_rfl, fun h => hle h.2⟩, .inr ⟨rfl, hlt⟩⟩

/-- An interval of equal ends holds no word. -/
theorem not_between_self (p l : List α) : ¬ (p ≤ l ∧ l < p) := fun h => absurd h.2 (not_lt.mpr h.1)

end PrefixIntervals
