import Mathlib.Algebra.Order.Ring.Int
import Mathlib.Algebra.Order.BigOperators.Group.List
import Mathlib.Data.List.Induction
import Mathlib.Data.List.Sort
import Mathlib.Order.Bounds.Basic
import Mathlib.Order.MinMax

/-! Half-open intervals and the sweep over their ends, which finds the largest number open at one time. -/
namespace IntervalSweep

variable {α K : Type*} (start finish : α → K)

/-- How many of the intervals are open at `t`. -/
def active [LinearOrder K] (xs : List α) (t : K) : Nat := xs.countP fun x => start x ≤ t ∧ t < finish x

/-- An interval counts from its start to its end. -/
def events (xs : List α) : List (K × Int) := xs.flatMap fun x => [(start x, 1), (finish x, -1)]

/-- The lexicographic order: the ends at an instant come before its starts. -/
def Precedes [LinearOrder K] (a b : K × Int) : Prop := a.1 < b.1 ∨ a.1 = b.1 ∧ a.2 ≤ b.2

instance [LinearOrder K] (a b : K × Int) : Decidable (Precedes a b) := inferInstanceAs (Decidable (_ ∨ _))

/-- The largest value of the running count from `cur` on, if it exceeds `best`. -/
def sweep : Int → Int → List (K × Int) → Int
  | _, best, [] => best
  | cur, best, e :: es => sweep (cur + e.2) (max best (cur + e.2)) es

/-- What the count is after these events. -/
def total (es : List (K × Int)) : Int := (es.map Prod.snd).sum

@[simp] theorem total_nil : total ([] : List (K × Int)) = 0 := rfl

@[simp] theorem total_cons (e : K × Int) (es : List (K × Int)) : total (e :: es) = e.2 + total es := by
  rw [total, List.map_cons, List.sum_cons, total]

@[simp] theorem total_append (es fs : List (K × Int)) : total (es ++ fs) = total es + total fs := by
  rw [total, List.map_append, List.sum_append, total, total]

private theorem total_perm {es fs : List (K × Int)} (h : es.Perm fs) : total es = total fs := (h.map Prod.snd).sum_eq

/-- The sweep is at least what it started with and every running count. -/
private theorem le_sweep (es : List (K × Int)) (cur best : Int) :
    best ≤ sweep cur best es ∧ ∀ pre, pre <+: es → pre ≠ [] → cur + total pre ≤ sweep cur best es := by
  induction es generalizing cur best with
  | nil =>
    refine ⟨le_rfl, fun pre hpre hne => ?_⟩
    exact absurd (List.prefix_nil.mp hpre) hne
  | cons e es ih =>
    obtain ⟨hbest, hcounts⟩ := ih (cur + e.2) (max best (cur + e.2))
    refine ⟨(le_max_left _ _).trans hbest, fun pre hpre hne => ?_⟩
    cases pre with
    | nil => exact absurd rfl hne
    | cons e' pre =>
      obtain ⟨rfl, hrest⟩ := List.cons_prefix_cons.mp hpre
      rw [sweep, total_cons, ← add_assoc]
      by_cases hnil : pre = []
      · subst hnil
        rw [total_nil, add_zero]
        exact (le_max_right _ _).trans hbest
      · exact hcounts pre hrest hnil

/-- It is one of them. -/
private theorem sweep_attained (es : List (K × Int)) (cur best : Int) :
    sweep cur best es = best ∨ ∃ pre, pre <+: es ∧ sweep cur best es = cur + total pre := by
  induction es generalizing cur best with
  | nil => exact .inl rfl
  | cons e es ih =>
    rw [sweep]
    rcases ih (cur + e.2) (max best (cur + e.2)) with h | ⟨pre, hpre, h⟩
    · rcases max_choice best (cur + e.2) with hmax | hmax
      · exact .inl (h.trans hmax)
      · refine .inr ⟨[e], ⟨es, rfl⟩, ?_⟩
        rw [h, hmax, total_cons, total_nil, add_zero]
    · refine .inr ⟨e :: pre, List.cons_prefix_cons.mpr ⟨rfl, hpre⟩, ?_⟩
      rw [h, total_cons, add_assoc]

variable [LinearOrder K]

instance : Std.Total (Precedes (K := K)) := ⟨fun a b => by
  rcases lt_trichotomy a.1 b.1 with h | h | h
  · exact .inl (.inl h)
  · exact (le_total a.2 b.2).imp (fun hle => .inr ⟨h, hle⟩) fun hle => .inr ⟨h.symm, hle⟩
  · exact .inr (.inl h)⟩

instance : IsTrans (K × Int) Precedes := ⟨fun a b c hab hbc => by
  rcases hab with hab | ⟨hab, hle⟩
  · rcases hbc with hbc | ⟨hbc, -⟩
    · exact .inl (hab.trans hbc)
    · exact .inl (hbc ▸ hab)
  · rcases hbc with hbc | ⟨hbc, hle'⟩
    · exact .inl (hab ▸ hbc)
    · exact .inr ⟨hab.trans hbc, hle.trans hle'⟩⟩

/-- The events up to `t` count the intervals open at `t`. -/
private theorem total_upTo {xs : List α} (hxs : ∀ x ∈ xs, start x ≤ finish x) (t : K) :
    total ((events start finish xs).filter fun e => e.1 ≤ t) = active start finish xs t := by
  induction xs with
  | nil => rfl
  | cons x xs ih =>
    have hx := hxs x List.mem_cons_self
    have hrest := ih fun y hy => hxs y (List.mem_cons_of_mem _ hy)
    have hsplit : events start finish (x :: xs) = [(start x, 1), (finish x, -1)] ++ events start finish xs := rfl
    have hone : total ([(start x, (1 : Int)), (finish x, -1)].filter fun e => e.1 ≤ t) =
        if start x ≤ t ∧ t < finish x then 1 else 0 := by
      by_cases hend : finish x ≤ t
      · simp [hx.trans hend, hend]
      · by_cases hstart : start x ≤ t
        · simp [hstart, hend, not_le.mp hend]
        · simp [hstart, hend]
    rw [hsplit, List.filter_append, total_append, hone, hrest, active, active, List.countP_cons]
    split
    all_goals simp_all [add_comm]

/-- What comes up to `t` in the sorted events is a first part of them. -/
private theorem upTo_initial {es : List (K × Int)} (hsorted : es.Pairwise Precedes) (t : K) :
    (es.filter fun e => e.1 ≤ t) <+: es := by
  induction es with
  | nil => exact List.prefix_rfl
  | cons e es ih =>
    obtain ⟨hfirst, hrest⟩ := List.pairwise_cons.mp hsorted
    by_cases ht : e.1 ≤ t
    · rw [List.filter_cons_of_pos (by simpa using ht)]
      exact List.cons_prefix_cons.mpr ⟨rfl, ih hrest⟩
    · have hnone : (e :: es).filter (fun e => e.1 ≤ t) = [] := by
        refine List.filter_eq_nil_iff.mpr fun f hf hle => ht ?_
        have hle : f.1 ≤ t := by simpa using hle
        rcases List.mem_cons.mp hf with rfl | hf
        · exact hle
        · rcases hfirst f hf with hlt | ⟨heq, -⟩
          · exact hlt.le.trans hle
          · exact heq.trans_le hle
      rw [hnone]
      exact List.nil_prefix

section Sorted
variable {start finish} {xs : List α} (hxs : ∀ x ∈ xs, start x ≤ finish x) {es : List (K × Int)}
  (hperm : es.Perm (events start finish xs)) (hsorted : es.Pairwise Precedes)
include hxs hperm

private theorem total_filter_upTo (t : K) : total (es.filter fun e => e.1 ≤ t) = active start finish xs t := by
  rw [total_perm (hperm.filter _), total_upTo start finish hxs]

include hsorted

/-- A running count that is positive is reached, or exceeded, by the number open at one time: right after a start the
ends at that instant are all behind. -/
private theorem total_le_active {pre : List (K × Int)} (hpre : pre <+: es) :
    total pre ≤ 0 ∨ ∃ t, total pre ≤ active start finish xs t := by
  induction pre using List.reverseRecOn with
  | nil => exact .inl le_rfl
  | append_singleton pre e ih =>
    obtain ⟨rest, rfl⟩ := hpre
    have he : e ∈ events start finish xs := hperm.mem_iff.mp (by simp)
    have hweight : e.2 = 1 ∨ e.2 = -1 := by
      obtain ⟨x, -, hx⟩ := List.mem_flatMap.mp he
      rcases List.mem_cons.mp hx with rfl | hx
      · exact .inl rfl
      · exact .inr (by rw [List.mem_singleton.mp hx])
    rw [total_append, total_cons, total_nil, add_zero]
    rcases hweight with hstart | hend
    · refine .inr ⟨e.1, ?_⟩
      rw [List.append_assoc] at hsorted
      obtain ⟨-, htail, hbefore⟩ := List.pairwise_append.mp hsorted
      have hpast : pre.filter (fun f => f.1 ≤ e.1) = pre := by
        refine List.filter_eq_self.mpr fun f hf => ?_
        have hle := hbefore f hf e (by simp)
        simp only [decide_eq_true_eq]
        exact hle.elim le_of_lt fun h => h.1.le
      have hlater : 0 ≤ total (rest.filter fun f => f.1 ≤ e.1) := by
        refine List.sum_nonneg fun n hn => ?_
        obtain ⟨f, hf, rfl⟩ := List.mem_map.mp hn
        obtain ⟨hf, hle⟩ := List.mem_filter.mp hf
        have hle : f.1 ≤ e.1 := by simpa using hle
        rcases (List.pairwise_cons.mp htail).1 f hf with hlt | ⟨-, hge⟩
        · exact absurd hle (not_le.mpr hlt)
        · omega
      rw [← total_filter_upTo hxs hperm e.1, List.append_assoc, List.filter_append, total_append, hpast,
        List.singleton_append, List.filter_cons_of_pos (by simp), total_cons]
      omega
    · have hshorter := ih (List.IsPrefix.trans (List.prefix_append pre [e]) (List.prefix_append _ rest))
      refine hshorter.imp (fun h => by omega) fun ⟨t, ht⟩ => ⟨t, by omega⟩

/-- The sweep over the sorted events finds the largest number of intervals that are open at one time. -/
theorem sweep_isGreatest [Nonempty K] :
    IsGreatest (Set.range fun t => (active start finish xs t : Int)) (sweep 0 0 es) := by
  obtain ⟨hzero, hcounts⟩ := le_sweep es 0 0
  have hupper : ∀ t, (active start finish xs t : Int) ≤ sweep 0 0 es := by
    intro t
    rw [← total_filter_upTo hxs hperm t]
    by_cases hnil : (es.filter fun e => e.1 ≤ t) = []
    · rw [hnil]
      exact hzero
    · simpa using hcounts _ (upTo_initial hsorted t) hnil
  refine ⟨?_, fun n hn => ?_⟩
  · have hle : sweep 0 0 es ≤ 0 ∨ ∃ t, sweep 0 0 es ≤ active start finish xs t := by
      rcases sweep_attained es 0 0 with h | ⟨pre, hpre, h⟩
      · exact .inl h.le
      · rw [h, zero_add]
        exact total_le_active hxs hperm hsorted hpre
    rcases hle with hle | ⟨t, ht⟩
    · obtain ⟨t⟩ := ‹Nonempty K›
      have hnone := hupper t
      exact ⟨t, le_antisymm hnone (hle.trans (Int.natCast_nonneg _))⟩
    · exact ⟨t, le_antisymm (hupper t) ht⟩
  · obtain ⟨t, rfl⟩ := hn
    exact hupper t

end Sorted
end IntervalSweep
