import Mathlib.Data.List.TakeWhile

/-! The words of a text: its maximal stretches without a separator. -/
namespace Words

variable {α : Type*} [DecidableEq α] {a : α}

def words (a : α) (s : List α) : List (List α) := (s.splitOn a).filter (· ≠ [])

theorem words_nil : words a [] = [] := by simp [words]

private theorem words_append_cons (u s : List α) : words a (u ++ a :: s) = words a u ++ words a s := by
  rw [words, List.splitOn_append_cons_self, List.filter_append]
  rfl

theorem words_cons_self (s : List α) : words a (a :: s) = words a s := by
  have h := words_append_cons (a := a) [] s
  rwa [words_nil] at h

private theorem words_of_notMem {u : List α} (hne : u ≠ []) (h : a ∉ u) : words a u = [u] := by
  rw [words, List.splitOn_eq_singleton h]
  simp [hne]

/-- Separators in front do not matter. -/
theorem words_dropWhile (s : List α) : words a (s.dropWhile (· = a)) = words a s := by
  induction s with
  | nil => rfl
  | cons b s ih =>
    by_cases hb : b = a
    · subst hb
      rw [List.dropWhile_cons_of_pos (by simp), ih, words_cons_self]
    · rw [List.dropWhile_cons_of_neg (by simpa using hb)]

/-- A text that begins with no separator begins with its first word. -/
theorem words_cons {b : α} (hb : b ≠ a) (s : List α) : words a (b :: s) =
    (b :: s).takeWhile (· ≠ a) :: words a ((b :: s).dropWhile (· ≠ a)) := by
  have hword : (b :: s).takeWhile (· ≠ a) ≠ [] := by simp [hb]
  have hfree : a ∉ (b :: s).takeWhile (· ≠ a) := by
    intro h
    simpa using List.mem_takeWhile_imp h
  have hsplit := List.takeWhile_append_dropWhile (p := (· ≠ a)) (l := b :: s)
  cases hrest : (b :: s).dropWhile (· ≠ a) with
  | nil =>
    rw [hrest, List.append_nil] at hsplit
    rw [words_nil, ← words_of_notMem hword hfree, hsplit]
  | cons c rest =>
    have hc : c = a := by
      have hhead := List.head?_dropWhile_not (· ≠ a) (b :: s)
      rw [hrest] at hhead
      simpa using hhead
    calc words a (b :: s) = words a ((b :: s).takeWhile (· ≠ a) ++ c :: rest) := by rw [← hrest, hsplit]
      _ = (b :: s).takeWhile (· ≠ a) :: words a (c :: rest) := by
        rw [hc, words_append_cons, words_of_notMem hword hfree, words_cons_self]
        rfl

theorem mem_words {w s : List α} (h : w ∈ words a s) : w ≠ [] ∧ a ∉ w ∧ w ⊆ s := by
  induction hlen : s.length using Nat.strong_induction_on generalizing s with
  | _ n ih =>
    cases s with
    | nil => simp [words_nil] at h
    | cons b s =>
      by_cases hb : b = a
      · subst hb
        rw [words_cons_self] at h
        obtain ⟨hne, hfree, hsub⟩ := ih s.length (by simp [← hlen]) h rfl
        exact ⟨hne, hfree, List.Subset.trans hsub (List.subset_cons_self b s)⟩
      · rw [words_cons hb] at h
        rcases List.mem_cons.mp h with rfl | h
        · exact ⟨by simp [hb], fun hin => by simpa using List.mem_takeWhile_imp hin, (List.takeWhile_prefix _).subset⟩
        · have hle := List.length_dropWhile_le (· ≠ a) s
          have hshort : ((b :: s).dropWhile (· ≠ a)).length < n := by
            rw [List.dropWhile_cons_of_pos (by simpa using hb), ← hlen, List.length_cons]
            omega
          obtain ⟨hne, hfree, hsub⟩ := ih _ hshort h rfl
          exact ⟨hne, hfree, List.Subset.trans hsub (List.dropWhile_suffix _).subset⟩

/-- Words joined are taken apart again. -/
theorem words_intercalate {ws : List (List α)} (h : ∀ w ∈ ws, w ≠ [] ∧ a ∉ w) : words a ([a].intercalate ws) = ws := by
  by_cases hws : ws = []
  · subst hws
    exact words_nil
  · rw [words, List.splitOn_intercalate a (fun w hw => (h w hw).2) hws]
    exact List.filter_eq_self.mpr fun w hw => by simpa using (h w hw).1

omit [DecidableEq α] in
/-- What stands in front of the first separator. -/
private theorem append_cons_prefix_iff {u w x y : List α} (hu : a ∉ u) (hw : a ∉ w) :
    u ++ a :: x <+: w ++ a :: y ↔ u = w ∧ x <+: y := by
  induction u generalizing w with
  | nil =>
    cases w with
    | nil => simp [List.cons_prefix_cons]
    | cons b w =>
      rw [List.mem_cons, not_or] at hw
      simp [List.cons_prefix_cons, hw.1]
  | cons b u ih =>
    rw [List.mem_cons, not_or] at hu
    cases w with
    | nil => simp [List.cons_prefix_cons, Ne.symm hu.1]
    | cons c w =>
      rw [List.mem_cons, not_or] at hw
      rw [List.cons_append, List.cons_append, List.cons_prefix_cons, ih hu.2 hw.2, List.cons.injEq, and_assoc]

omit [DecidableEq α] in
/-- Words joined with a separator behind them begin what a longer list of words is joined to. -/
theorem intercalate_prefix_iff {us ws : List (List α)} (hus : us ≠ []) (hu : ∀ u ∈ us, a ∉ u) (hw : ∀ w ∈ ws, a ∉ w) :
    [a].intercalate us ++ [a] <+: [a].intercalate ws ↔ us <+: ws ∧ us ≠ ws := by
  induction us generalizing ws with
  | nil => exact absurd rfl hus
  | cons u us ih =>
    have hshort : ∀ (w s : List α), a ∉ w → ¬ u ++ a :: s <+: w := fun w s hin hpre =>
      hin (hpre.subset (List.mem_append_right _ List.mem_cons_self))
    have hrest : ∃ s, [a].intercalate (u :: us) ++ [a] = u ++ a :: s ∧ (us = [] → s = []) ∧
        (us ≠ [] → s = [a].intercalate us ++ [a]) := by
      by_cases hne : us = []
      · exact ⟨[], by simp [hne], fun _ => rfl, fun h => absurd hne h⟩
      · exact ⟨_, by rw [List.intercalate_cons_of_ne_nil hne]; simp, fun h => absurd h hne, fun _ => rfl⟩
    obtain ⟨s, hs, hlast, hmore⟩ := hrest
    rw [hs]
    match ws with
    | [] =>
      exact iff_of_false (hshort [] s List.not_mem_nil) fun h => absurd (List.prefix_nil.mp h.1) (List.cons_ne_nil _ _)
    | [w] =>
      rw [List.intercalate_singleton]
      refine iff_of_false (hshort w s (hw w List.mem_cons_self)) fun h => ?_
      obtain ⟨rfl, hpre⟩ := List.cons_prefix_cons.mp h.1
      exact h.2 (by rw [List.prefix_nil.mp hpre])
    | w :: w' :: ws =>
      rw [List.intercalate_cons_of_ne_nil (List.cons_ne_nil _ _), List.append_assoc, List.singleton_append,
        append_cons_prefix_iff (hu u List.mem_cons_self) (hw w List.mem_cons_self), List.cons_prefix_cons]
      by_cases hne : us = []
      · rw [hlast hne, hne]
        simp
      · rw [hmore hne, ih hne (fun u hin => hu u (List.mem_cons_of_mem _ hin)) fun w hin =>
          hw w (List.mem_cons_of_mem _ hin)]
        rw [and_assoc, Ne, Ne, List.cons.injEq, not_and_or]
        constructor
        · rintro ⟨rfl, hpre, hdiff⟩
          exact ⟨rfl, hpre, .inr hdiff⟩
        · rintro ⟨rfl, hpre, hdiff⟩
          exact ⟨rfl, hpre, hdiff.resolve_left fun h => h rfl⟩

end Words
