import Mathlib.Data.List.Basic
import Mathlib.Data.List.Find
import Mathlib.Data.List.Infix

/-! A list cut in two at each occurrence of a symbol. -/
namespace SymbolCuts

variable {α : Type*} [DecidableEq α] {a : α}

/-- What stands before and behind each occurrence of `a`, from the front. -/
def cuts (a : α) : List α → List (List α × List α)
  | [] => []
  | b :: s => (if b = a then [([], s)] else []) ++ (cuts a s).map fun c => (b :: c.1, c.2)

theorem cuts_cons_of_ne {b : α} (h : b ≠ a) (s : List α) :
    cuts a (b :: s) = (cuts a s).map fun c => (b :: c.1, c.2) := by
  rw [cuts, if_neg h, List.nil_append]

theorem cuts_cons_self (s : List α) : cuts a (a :: s) = ([], s) :: (cuts a s).map fun c => (a :: c.1, c.2) := by
  rw [cuts, if_pos rfl, List.singleton_append]

theorem cuts_append {u : List α} (h : a ∉ u) (s : List α) :
    cuts a (u ++ s) = (cuts a s).map fun c => (u ++ c.1, c.2) := by
  induction u with
  | nil => simp
  | cons b u ih =>
    rw [List.mem_cons, not_or] at h
    rw [List.cons_append, cuts_cons_of_ne (Ne.symm h.1), ih h.2, List.map_map]
    rfl

theorem eq_of_mem_cuts {s : List α} {c : List α × List α} (h : c ∈ cuts a s) : s = c.1 ++ a :: c.2 := by
  induction s generalizing c with
  | nil => exact absurd h List.not_mem_nil
  | cons b s ih =>
    rcases List.mem_append.mp h with h | h
    · split at h
      · rename_i hb
        obtain rfl := List.mem_singleton.mp h
        rw [hb]
        rfl
      · exact absurd h List.not_mem_nil
    · obtain ⟨d, hd, rfl⟩ := List.mem_map.mp h
      rw [ih hd]
      rfl

/-- No cut comes before the first whose front is long enough. -/
theorem find?_cuts (p : List α → Bool) (y r : List α) (hy : p y = true)
    (hshort : ∀ x, x.length < y.length → p x = false) :
    (cuts a (y ++ a :: r)).find? (fun c => p c.1) = some (y, r) := by
  induction y generalizing p with
  | nil =>
    rw [List.nil_append, cuts_cons_self]
    exact List.find?_cons_of_pos hy
  | cons b y ih =>
    have hrest := ih (fun x => p (b :: x)) hy fun x hx => hshort (b :: x) (Nat.succ_lt_succ hx)
    have hnil := hshort [] (Nat.succ_pos _)
    have htail : ((cuts a (y ++ a :: r)).map fun c => (b :: c.1, c.2)).find? (fun c => p c.1) = some (b :: y, r) := by
      rw [List.find?_map]
      exact congrArg (Option.map fun c => (b :: c.1, c.2)) hrest
    by_cases hb : b = a
    · subst hb
      rw [List.cons_append, cuts_cons_self, List.find?_cons_of_neg (by simp [hnil]), htail]
    · rw [List.cons_append, cuts_cons_of_ne hb, htail]

end SymbolCuts
