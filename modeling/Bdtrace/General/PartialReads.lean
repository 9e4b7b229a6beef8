import Mathlib.Data.List.Basic
import Mathlib.Data.List.TakeWhile

/-! Reading a sequence that is only partly there: what is available from a place on, and the text up to a stop
mark. -/
namespace PartialReads

variable {α : Type*}

/-- The elements that are there, at most `n` from place `i` on. -/
def available (s : Nat → Option α) (i : Nat) : Nat → List α
  | 0 => []
  | n + 1 =>
    match s i with
    | none => []
    | some a => a :: available s (i + 1) n

/-- The available elements before the first one that stops. -/
def text (stop : α → Bool) (s : Nat → Option α) (i n : Nat) : List α := (available s i n).takeWhile fun a => !stop a

variable {stop : α → Bool} {s : Nat → Option α} {i n : Nat}

theorem available_length_le : (available s i n).length ≤ n := by
  induction n generalizing i with
  | zero => exact le_rfl
  | succ n ih =>
    rw [available]
    split
    · exact Nat.zero_le _
    · exact Nat.succ_le_succ ih

theorem available_eq_nil_iff : available s i n = [] ↔ n = 0 ∨ s i = none := by
  cases n with
  | zero => simp [available]
  | succ n =>
    rw [available]
    split <;> simp_all

/-- A read in two parts: the second counts only when the first is complete. -/
private theorem available_add (m : Nat) : available s i (m + n) =
    available s i m ++ (if (available s i m).length = m then available s (i + m) n else []) := by
  induction m generalizing i with
  | zero => simp [available]
  | succ m ih =>
    rw [Nat.succ_add, available, available]
    cases s i with
    | none => simp
    | some a =>
      simp only [List.cons_append, List.length_cons, Nat.add_right_cancel_iff, ih (i := i + 1),
        Nat.succ_add_eq_add_succ]

/-- A complete read. -/
theorem available_full_iff : (available s i n).length = n ↔ ∀ j < n, (s (i + j)).isSome := by
  induction n generalizing i with
  | zero => simp [available]
  | succ n ih =>
    rw [available]
    cases h : s i with
    | none =>
      refine iff_of_false (by simp) fun hall => ?_
      have hfirst := hall 0 (Nat.succ_pos n)
      simp [h] at hfirst
    | some a =>
      rw [List.length_cons, Nat.add_right_cancel_iff, ih]
      constructor
      · intro hrest j hj
        cases j with
        | zero => simp [h]
        | succ j =>
          rw [← Nat.succ_add_eq_add_succ]
          exact hrest j (by omega)
      · intro hall j hj
        rw [Nat.add_right_comm, Nat.add_assoc]
        exact hall (j + 1) (by omega)

/-- As much as was read can be asked for. -/
private theorem available_length : available s i (available s i n).length = available s i n := by
  induction n generalizing i with
  | zero => rfl
  | succ n ih =>
    rw [available]
    cases h : s i with
    | none => rfl
    | some a =>
      simp only [List.length_cons]
      rw [available, h, ih]

theorem text_length_le : (text stop s i n).length ≤ (available s i n).length := (List.takeWhile_prefix _).length_le

private theorem text_lt (h : ∃ a ∈ available s i n, stop a = true) :
    (text stop s i n).length < (available s i n).length := by
  obtain ⟨a, ha, hstop⟩ := h
  refine lt_of_le_of_ne text_length_le fun hlength => ?_
  have hall := List.takeWhile_eq_self_iff.mp ((List.takeWhile_prefix _).eq_of_length hlength) a ha
  simp [hstop] at hall

theorem text_length_lt (h : ∃ a ∈ available s i n, stop a = true) : (text stop s i n).length < n :=
  (text_lt h).trans_le available_length_le

/-- A stop mark within the first part ends the text there. -/
theorem text_stopped {m : Nat} (h : ∃ a ∈ available s i m, stop a = true) :
    text stop s i (m + n) = text stop s i m := by
  rw [text, available_add, List.takeWhile_append]
  exact if_neg (text_lt h).ne

/-- So does a gap. -/
theorem text_cut {m : Nat} (h : (available s i m).length ≠ m) : text stop s i (m + n) = text stop s i m := by
  rw [text, available_add, if_neg h, List.append_nil]
  rfl

/-- A first part without a stop mark. -/
theorem text_add {m : Nat} (h : ∀ a ∈ available s i m, stop a = false) : text stop s i (m + n) =
    available s i m ++ (if (available s i m).length = m then text stop s (i + m) n else []) := by
  rw [text, available_add, List.takeWhile_append_of_pos fun a ha => by simp [h a ha]]
  split <;> rfl

/-- A part that was read without a stop mark, as far as it went. -/
theorem text_read {m : Nat} (hle : m ≤ n) (h : ∀ a ∈ available s i m, stop a = false) : text stop s i n =
    available s i m ++ text stop s (i + (available s i m).length) (n - (available s i m).length) := by
  have hlength : (available s i m).length ≤ n := available_length_le.trans hle
  -- what was read is a complete read of its own length
  have hread : available s i (available s i m).length = available s i m := available_length
  have hplain : ∀ a ∈ available s i (available s i m).length, stop a = false := fun a ha => h a (hread ▸ ha)
  have hadd := text_add (n := n - (available s i m).length) hplain
  rwa [Nat.add_sub_cancel' hlength, hread, if_pos rfl] at hadd

end PartialReads
