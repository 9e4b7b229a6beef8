import Mathlib.Data.List.Basic
import Mathlib.Data.List.Induction

/-! Lists in which one symbol, `up`, takes back the symbol before it. -/
namespace Cancel

variable {α : Type*}

/-- `up` stands only in a block at the front, and nowhere below the root. -/
def Reduced (up : α) (rooted : Bool) (xs : List α) : Prop :=
  ∃ n names, xs = List.replicate n up ++ names ∧ up ∉ names ∧ (rooted = true → n = 0)

/-- `a` after the reduced list `done`. An `up` with nothing to take back is kept, or lost at the root. -/
def push [DecidableEq α] (up : α) (rooted : Bool) (done : List α) (a : α) : List α :=
  if a ≠ up then done ++ [a]
  else if done.getLastD up ≠ up then done.dropLast
  else if rooted then done
  else done ++ [up]

def reduce [DecidableEq α] (up : α) (rooted : Bool) (xs : List α) : List α := xs.foldl (push up rooted) []

variable {up : α} {rooted : Bool}

theorem reduced_of_notMem {xs : List α} (h : up ∉ xs) : Reduced up rooted xs := ⟨0, xs, rfl, h, fun _ => rfl⟩

private theorem getLastD_replicate (n : Nat) : (List.replicate n up).getLastD up = up := by
  cases n with
  | zero => rfl
  | succ n => rw [List.replicate_succ', List.getLastD_eq_getLast?, List.getLast?_concat, Option.getD_some]

section
variable [DecidableEq α]

private theorem push_reduced {done : List α} (h : Reduced up rooted done) (a : α) :
    Reduced up rooted (push up rooted done a) := by
  obtain ⟨n, names, rfl, hup, hn⟩ := h
  by_cases ha : a = up
  · subst ha
    rcases names.eq_nil_or_concat' with rfl | ⟨names, last, rfl⟩
    · -- only the block at the front
      rw [push, if_neg (not_not.mpr rfl), List.append_nil, if_neg (not_not.mpr (getLastD_replicate n))]
      split
      · exact ⟨n, [], (List.append_nil _).symm, List.not_mem_nil, hn⟩
      · refine ⟨n + 1, [], ?_, List.not_mem_nil, fun hr => absurd hr (by assumption)⟩
        rw [List.append_nil, List.replicate_succ']
    · rw [List.mem_append, List.mem_singleton, not_or] at hup
      have hlast : (List.replicate n a ++ (names ++ [last])).getLastD a ≠ a := by
        rw [← List.append_assoc, List.getLastD_eq_getLast?, List.getLast?_concat]
        exact fun h => hup.2 h.symm
      rw [push, if_neg (not_not.mpr rfl), if_pos hlast, ← List.append_assoc, List.dropLast_concat]
      exact ⟨n, names, rfl, hup.1, hn⟩
  · rw [push, if_pos ha, List.append_assoc]
    refine ⟨n, names ++ [a], rfl, ?_, hn⟩
    rw [List.mem_append, List.mem_singleton, not_or]
    exact ⟨hup, Ne.symm ha⟩

theorem reduce_reduced (xs : List α) : Reduced up rooted (reduce up rooted xs) := by
  induction xs using List.reverseRecOn with
  | nil => exact reduced_of_notMem List.not_mem_nil
  | append_singleton xs a ih =>
    rw [reduce, List.foldl_append]
    exact push_reduced ih a

private theorem reduced_concat {xs : List α} {a : α} (h : Reduced up rooted (xs ++ [a])) :
    Reduced up rooted xs ∧ push up rooted xs a = xs ++ [a] := by
  obtain ⟨n, names, hxs, hup, hn⟩ := h
  rcases names.eq_nil_or_concat' with rfl | ⟨names, last, rfl⟩
  · rw [List.append_nil] at hxs
    cases n with
    | zero => simp at hxs
    | succ n =>
      obtain ⟨rfl, ha⟩ := List.append_inj' (hxs.trans List.replicate_succ') rfl
      obtain rfl := List.singleton_inj.mp ha
      have hroot : rooted = false := Bool.eq_false_iff.mpr fun hr => by cases hn hr
      refine ⟨⟨n, [], (List.append_nil _).symm, List.not_mem_nil, fun hr => by cases hn hr⟩, ?_⟩
      rw [push, if_neg (not_not.mpr rfl), if_neg (not_not.mpr (getLastD_replicate n)), hroot]
      rfl
  · rw [← List.append_assoc] at hxs
    obtain ⟨rfl, ha⟩ := List.append_inj' hxs rfl
    obtain rfl := List.singleton_inj.mp ha
    rw [List.mem_append, List.mem_singleton, not_or] at hup
    exact ⟨⟨n, names, rfl, hup.1, hn⟩, if_pos (Ne.symm hup.2)⟩

/-- A reduced list stays as it is. -/
theorem reduce_of_reduced {xs : List α} (h : Reduced up rooted xs) : reduce up rooted xs = xs := by
  induction xs using List.reverseRecOn with
  | nil => rfl
  | append_singleton xs a ih =>
    obtain ⟨hxs, hpush⟩ := reduced_concat h
    rw [reduce, List.foldl_append]
    change push up rooted (reduce up rooted xs) a = xs ++ [a]
    rw [ih hxs, hpush]

private theorem mem_push {done : List α} {a b : α} (h : b ∈ push up rooted done a) : b ∈ done ∨ b = a := by
  simp only [push] at h
  split at h
  · simpa using h
  · rename_i ha
    obtain rfl := not_not.mp ha
    split at h
    · exact .inl (List.dropLast_subset _ h)
    · split at h
      · exact .inl h
      · simpa using h

theorem mem_reduce {xs : List α} {b : α} (h : b ∈ reduce up rooted xs) : b ∈ xs := by
  induction xs using List.reverseRecOn with
  | nil => exact h
  | append_singleton xs a ih =>
    rw [reduce, List.foldl_append] at h
    rw [List.mem_append, List.mem_singleton]
    exact (mem_push h).imp_left ih

end
end Cancel
