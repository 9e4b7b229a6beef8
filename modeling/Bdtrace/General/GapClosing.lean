import Mathlib.Algebra.Order.Ring.Defs
import Mathlib.Algebra.Order.Group.Abs
import Mathlib.Tactic.Linarith

/-! Items on a time line, in the order of their starts. Where one starts more than a tolerance after all that come
before it, the time between is taken out, and it starts where the latest of the run before it finished. -/
namespace GapClosing

/-- The shift at this point of the scan, and the latest finish since the last gap. -/
structure Scan (K : Type*) where
  shift : K
  busy : K

section Defs
variable {α K : Type*} [CommRing K] [LinearOrder K] (start finish : α → K) (tol : K)

def advance (s : Scan K) (x : α) : Scan K :=
  if s.busy + tol < start x then ⟨s.shift + (start x - s.busy), finish x⟩ else ⟨s.shift, max s.busy (finish x)⟩

/-- The items with their shifts. -/
def place : Scan K → List α → List (α × K)
  | _, [] => []
  | s, x :: xs => (x, (advance start finish tol s x).shift) :: place (advance start finish tol s x) xs

/-- The first item is not shifted. -/
def placed : List α → List (α × K)
  | [] => []
  | x :: xs => (x, 0) :: place start finish tol ⟨0, finish x⟩ xs

/-- `x` starts more than the tolerance after all of `pre` is finished. -/
def Gap (pre : List α) (x : α) : Prop := ∀ p ∈ pre, finish p + tol < start x

/-- `Q` of what is before a gap and what is after it, wherever there is one. -/
def AtGaps (Q : List α → List α → Prop) (xs : List α) : Prop :=
  ∀ pre x post, xs = pre ++ x :: post → pre ≠ [] → Gap start finish tol pre x → Q pre (x :: post)

/-- Nothing before a gap starts later than all before it is finished. -/
def Covered : List α → Prop := AtGaps start finish tol fun pre _ => ∀ p ∈ pre, ∃ q ∈ pre, start p ≤ finish q

end Defs

variable {α K : Type*} [CommRing K] [LinearOrder K] {start finish : α → K} {tol : K}

private theorem atGaps_iff {Q : List α → List α → Prop} {xs : List α} :
    AtGaps start finish tol Q xs ↔ ∀ i, ∀ hi : i < xs.length, i ≠ 0 → Gap start finish tol (xs.take i) xs[i] →
      Q (xs.take i) (xs.drop i) := by
  constructor
  · intro h i hi hne hgap
    have hdrop : xs.drop i = xs[i] :: xs.drop (i + 1) := List.drop_eq_getElem_cons hi
    rw [hdrop]
    refine h _ _ _ ?_ ?_ hgap
    · rw [← hdrop, List.take_append_drop]
    · exact List.ne_nil_of_length_pos (by rw [List.length_take]; omega)
  · rintro h pre x post rfl hpre hgap
    have hgap' := h pre.length (by simp) (fun hzero => hpre (List.eq_nil_of_length_eq_zero hzero)) (by simpa using hgap)
    rwa [List.take_left, List.drop_left] at hgap'

instance AtGaps.decidable {Q : List α → List α → Prop} [∀ before after, Decidable (Q before after)] (xs : List α) :
    Decidable (AtGaps start finish tol Q xs) :=
  have : ∀ pre x, Decidable (Gap start finish tol pre x) := fun pre x =>
    inferInstanceAs (Decidable (∀ p ∈ pre, finish p + tol < start x))
  decidable_of_iff _ atGaps_iff.symm

theorem covered_of_le {xs : List α} (hfinished : ∀ x ∈ xs, start x ≤ finish x) : Covered start finish tol xs := by
  rintro pre x post rfl - - p hp
  exact ⟨p, hp, hfinished p (List.mem_append_left _ hp)⟩

private theorem place_fst (s : Scan K) (xs : List α) : (place start finish tol s xs).map Prod.fst = xs := by
  induction xs generalizing s with
  | nil => rfl
  | cons x xs ih => rw [place, List.map_cons, ih]

theorem placed_fst (start finish : α → K) (tol : K) (xs : List α) : (placed start finish tol xs).map Prod.fst = xs := by
  cases xs with
  | nil => rfl
  | cons x xs => rw [placed, List.map_cons, place_fst]

/-- What every step of the scan keeps holds when an item is reached. -/
private theorem place_rule {Inv : List (α × K) → Scan K → List α → Prop}
    (hstep : ∀ done s x rest, Inv done s (x :: rest) →
      Inv (done ++ [(x, (advance start finish tol s x).shift)]) (advance start finish tol s x) rest)
    {done : List (α × K)} {s : Scan K} {xs : List α} (h : Inv done s xs) {pre post : List (α × K)} {y : α × K}
    (heq : place start finish tol s xs = pre ++ y :: post) :
    ∃ s', Inv (done ++ pre) s' (y.1 :: post.map Prod.fst) ∧ y.2 = (advance start finish tol s' y.1).shift := by
  induction xs generalizing done s pre with
  | nil => simp [place] at heq
  | cons x xs ih =>
    rw [place] at heq
    cases pre with
    | nil =>
      obtain ⟨rfl, rfl⟩ := List.cons.inj heq
      refine ⟨s, ?_, rfl⟩
      rw [place_fst, List.append_nil]
      exact h
    | cons p pre =>
      obtain ⟨rfl, htail⟩ := List.cons.inj heq
      obtain ⟨s', hinv, hy⟩ := ih (hstep _ _ _ _ h) htail
      exact ⟨s', by simpa using hinv, hy⟩

/-- What every step keeps holds at the end. -/
private theorem place_rule_end {Inv : List (α × K) → Scan K → List α → Prop}
    (hstep : ∀ done s x rest, Inv done s (x :: rest) →
      Inv (done ++ [(x, (advance start finish tol s x).shift)]) (advance start finish tol s x) rest)
    {done : List (α × K)} {s : Scan K} {xs : List α} (h : Inv done s xs) :
    ∃ s', Inv (done ++ place start finish tol s xs) s' [] := by
  induction xs generalizing done s with
  | nil => exact ⟨s, by simpa [place] using h⟩
  | cons x xs ih =>
    obtain ⟨s', hinv⟩ := ih (hstep _ _ _ _ h)
    exact ⟨s', by simpa [place] using hinv⟩

/-- What holds after the first item and is kept by every step holds at the end. -/
private theorem placed_rule {Inv : List (α × K) → Scan K → List α → Prop}
    (hstep : ∀ done s x rest, Inv done s (x :: rest) →
      Inv (done ++ [(x, (advance start finish tol s x).shift)]) (advance start finish tol s x) rest)
    {x : α} {xs : List α} (h : Inv [(x, 0)] ⟨0, finish x⟩ xs) : ∃ s, Inv (placed start finish tol (x :: xs)) s [] :=
  place_rule_end hstep h

/-- The scan of `xs` when `rest` is left: the latest finish of the run stands for those of all items. -/
structure Scanned (start finish : α → K) (tol : K) (xs : List α) (done : List (α × K)) (s : Scan K) (rest : List α) :
    Prop where
  whole : done.map Prod.fst ++ rest = xs
  sorted : xs.Pairwise fun a b => start a ≤ start b
  top : ∃ q ∈ done, finish q.1 = s.busy ∧ q.2 = s.shift
  under : ∀ p ∈ done, finish p.1 ≤ s.busy ∨ ∀ q ∈ done, q.2 = s.shift → finish p.1 + tol < start q.1
  shifts : ∀ p ∈ done, p.2 ≤ s.shift
  grows : done.Pairwise fun p q => p.2 ≤ q.2

theorem Scanned.first {x : α} {xs : List α} (hsorted : (x :: xs).Pairwise fun a b => start a ≤ start b) :
    Scanned start finish tol (x :: xs) [(x, 0)] ⟨0, finish x⟩ xs where
  whole := rfl
  sorted := hsorted
  top := ⟨_, List.mem_singleton_self _, rfl, rfl⟩
  under p hp := .inl (by rw [List.mem_singleton.mp hp])
  shifts p hp := by rw [List.mem_singleton.mp hp]
  grows := List.pairwise_singleton _ _

section Scanned
variable {xs rest : List α} {done : List (α × K)} {s : Scan K} {x : α}

theorem Scanned.ne_nil (h : Scanned start finish tol xs done s rest) : done.map Prod.fst ≠ [] := by
  obtain ⟨q, hq, -⟩ := h.top
  exact List.ne_nil_of_mem (List.mem_map_of_mem hq)

theorem Scanned.before (h : Scanned start finish tol xs done s rest) {p : α × K} (hp : p ∈ done) {y : α}
    (hy : y ∈ rest) : start p.1 ≤ start y := by
  have hsorted := h.sorted
  rw [← h.whole] at hsorted
  exact (List.pairwise_append.mp hsorted).2.2 p.1 (List.mem_map_of_mem hp) y hy

theorem Scanned.later (h : Scanned start finish tol xs done s (x :: rest)) : ∀ y ∈ rest, start x ≤ start y := by
  have hsorted := h.sorted
  rw [← h.whole] at hsorted
  exact (List.pairwise_cons.mp (List.pairwise_append.mp hsorted).2.1).1

/-- An item is added with the shift of the scan after it. -/
private theorem Scanned.snoc {s' : Scan K} (h : Scanned start finish tol xs done s (x :: rest))
    (hshift : s.shift ≤ s'.shift) (htop : ∃ q ∈ done ++ [(x, s'.shift)], finish q.1 = s'.busy ∧ q.2 = s'.shift)
    (hunder : ∀ p ∈ done ++ [(x, s'.shift)],
      finish p.1 ≤ s'.busy ∨ ∀ q ∈ done ++ [(x, s'.shift)], q.2 = s'.shift → finish p.1 + tol < start q.1) :
    Scanned start finish tol xs (done ++ [(x, s'.shift)]) s' rest where
  whole := by
    rw [← h.whole, List.map_append, List.append_assoc]
    rfl
  sorted := h.sorted
  top := htop
  under := hunder
  shifts := List.forall_mem_append.mpr ⟨fun p hp => (h.shifts p hp).trans hshift, List.forall_mem_singleton.mpr le_rfl⟩
  grows := by
    refine List.pairwise_append.mpr ⟨h.grows, List.pairwise_singleton _ _, fun p hp q hq => ?_⟩
    rw [List.mem_singleton.mp hq]
    exact (h.shifts p hp).trans hshift

variable [IsStrictOrderedRing K]

private theorem Scanned.gap_iff (h : Scanned start finish tol xs done s (x :: rest)) :
    s.busy + tol < start x ↔ Gap start finish tol (done.map Prod.fst) x := by
  obtain ⟨q, hq, hbusy, hshift⟩ := h.top
  constructor
  · intro hgap x₀ hx₀
    obtain ⟨p, hp, rfl⟩ := List.mem_map.mp hx₀
    rcases h.under p hp with hle | hlt
    · linarith
    · exact (hlt q hq hshift).trans_le (h.before hq List.mem_cons_self)
  · intro hgap
    exact hbusy ▸ hgap q.1 (List.mem_map_of_mem hq)

/-- The shift of the next item, with or without a gap before it. -/
private theorem Scanned.advance_cases (h : Scanned start finish tol xs done s (x :: rest)) :
    (Gap start finish tol (done.map Prod.fst) x ∧ s.busy + tol < start x ∧
        advance start finish tol s x = ⟨s.shift + (start x - s.busy), finish x⟩) ∨
      (¬ Gap start finish tol (done.map Prod.fst) x ∧ start x ≤ s.busy + tol ∧
        advance start finish tol s x = ⟨s.shift, max s.busy (finish x)⟩) := by
  rw [← h.gap_iff, advance]
  split
  · rename_i hgap
    exact .inl ⟨hgap, hgap, rfl⟩
  · rename_i hgap
    exact .inr ⟨hgap, not_lt.mp hgap, rfl⟩

theorem Scanned.step (htol : 0 ≤ tol) (h : Scanned start finish tol xs done s (x :: rest)) :
    Scanned start finish tol xs (done ++ [(x, (advance start finish tol s x).shift)]) (advance start finish tol s x)
      rest := by
  have hself : ∀ c : K, (x, c) ∈ done ++ [(x, c)] := fun c => List.mem_append_right _ (List.mem_singleton_self _)
  rcases h.advance_cases with ⟨hgap, hlt, heq⟩ | ⟨-, -, heq⟩
  · have hgrow : s.shift < s.shift + (start x - s.busy) := by linarith
    rw [heq]
    refine h.snoc hgrow.le ⟨_, hself _, rfl, rfl⟩ ?_
    refine List.forall_mem_append.mpr ⟨fun p hp => .inr ?_, List.forall_mem_singleton.mpr (.inl le_rfl)⟩
    refine List.forall_mem_append.mpr ⟨fun q hq hshift => ?_, List.forall_mem_singleton.mpr fun _ => ?_⟩
    · -- only the new item has the new shift
      exact absurd hshift ((h.shifts q hq).trans_lt hgrow).ne
    · exact hgap p.1 (List.mem_map_of_mem hp)
  · obtain ⟨q₀, hq₀, hbusy, hshift₀⟩ := h.top
    rw [heq]
    refine h.snoc le_rfl ?_ ?_
    · rcases max_choice s.busy (finish x) with hmax | hmax
      · exact ⟨q₀, List.mem_append_left _ hq₀, hbusy.trans hmax.symm, hshift₀⟩
      · exact ⟨_, hself _, hmax.symm, rfl⟩
    · refine List.forall_mem_append.mpr ⟨fun p hp => ?_, List.forall_mem_singleton.mpr (.inl (le_max_right _ _))⟩
      refine (h.under p hp).imp (fun hle => hle.trans (le_max_left _ _)) fun hlt => ?_
      refine List.forall_mem_append.mpr ⟨hlt, List.forall_mem_singleton.mpr fun _ => ?_⟩
      exact (hlt q₀ hq₀ hshift₀).trans_le (h.before hq₀ List.mem_cons_self)

end Scanned

/-- The items so far keep their order, and only what lies further apart than the tolerance is shifted apart. -/
structure Ordered (start finish : α → K) (tol : K) (xs : List α) (done : List (α × K)) (s : Scan K) (rest : List α) :
    Prop extends Scanned start finish tol xs done s rest where
  pairs : done.Pairwise fun p q => start p.1 - p.2 ≤ start q.1 - q.2 ∧ (p.2 = q.2 ∨ start p.1 + tol < start q.1)
  last : ∀ p ∈ done, ∃ q ∈ done, q.2 = s.shift ∧ start p.1 - p.2 ≤ start q.1 - q.2
  apart : ∀ p ∈ done, p.2 = s.shift ∨ ∀ x ∈ rest, start p.1 + tol < start x

theorem Ordered.first {x : α} {xs : List α} (hsorted : (x :: xs).Pairwise fun a b => start a ≤ start b) :
    Ordered start finish tol (x :: xs) [(x, 0)] ⟨0, finish x⟩ xs where
  toScanned := Scanned.first hsorted
  pairs := List.pairwise_singleton _ _
  last p hp := ⟨p, hp, by rw [List.mem_singleton.mp hp], le_rfl⟩
  apart p hp := .inl (by rw [List.mem_singleton.mp hp])

section Ordered
variable {xs rest : List α} {done : List (α × K)} {s : Scan K} {x : α}

/-- An item is added that starts no earlier than those so far, and far from those of earlier runs. -/
private theorem Ordered.snoc (h : Ordered start finish tol xs done s (x :: rest)) {s' : Scan K}
    (hscan : Scanned start finish tol xs (done ++ [(x, s'.shift)]) s' rest)
    (horder : ∀ p ∈ done, start p.1 - p.2 ≤ start x - s'.shift)
    (hapart : ∀ p ∈ done, p.2 = s'.shift ∨ start p.1 + tol < start x) :
    Ordered start finish tol xs (done ++ [(x, s'.shift)]) s' rest where
  toScanned := hscan
  pairs := by
    refine List.pairwise_append.mpr ⟨h.pairs, List.pairwise_singleton _ _, fun p hp q hq => ?_⟩
    rw [List.mem_singleton.mp hq]
    exact ⟨horder p hp, hapart p hp⟩
  last := by
    have hself : (x, s'.shift) ∈ done ++ [(x, s'.shift)] := List.mem_append_right _ (List.mem_singleton_self _)
    refine List.forall_mem_append.mpr ⟨fun p hp => ⟨_, hself, rfl, horder p hp⟩, ?_⟩
    exact List.forall_mem_singleton.mpr ⟨_, hself, rfl, le_rfl⟩
  apart := by
    refine List.forall_mem_append.mpr ⟨fun p hp => ?_, List.forall_mem_singleton.mpr (.inl rfl)⟩
    exact (hapart p hp).imp_right fun hlt y hy => hlt.trans_le (h.later y hy)

variable [IsStrictOrderedRing K]

theorem Ordered.step (htol : 0 ≤ tol) (hcov : Covered start finish tol xs)
    (h : Ordered start finish tol xs done s (x :: rest)) :
    Ordered start finish tol xs (done ++ [(x, (advance start finish tol s x).shift)]) (advance start finish tol s x)
      rest := by
  apply h.snoc (h.toScanned.step htol)
  · intro p hp
    obtain ⟨q, hq, hshift, hle⟩ := h.last p hp
    rcases h.advance_cases with ⟨hgap, -, heq⟩ | ⟨-, -, heq⟩
    · obtain ⟨r₀, hr₀, hqr⟩ := hcov _ x rest h.whole.symm h.ne_nil hgap q.1 (List.mem_map_of_mem hq)
      obtain ⟨r, hr, rfl⟩ := List.mem_map.mp hr₀
      -- what covers an item of the run is itself of the run
      have hbusy : finish r.1 ≤ s.busy := by
        rcases h.under r hr with hbusy | hlt
        · exact hbusy
        · linarith [hlt q hq hshift]
      rw [heq]
      linarith
    · rw [heq]
      linarith [h.before hq List.mem_cons_self]
  · intro p hp
    rcases h.advance_cases with ⟨hgap, -, heq⟩ | ⟨-, -, heq⟩
    · obtain ⟨r, hr, hpr⟩ := hcov _ x rest h.whole.symm h.ne_nil hgap p.1 (List.mem_map_of_mem hp)
      exact .inr (by linarith [hgap r hr])
    · rw [heq]
      exact (h.apart p hp).imp_right fun hlt => hlt x List.mem_cons_self

end Ordered

/-- What is shifted has the property of all items after a gap. -/
structure Unmoved (start finish : α → K) (tol : K) (Q : α → Prop) (xs : List α) (done : List (α × K)) (s : Scan K)
    (rest : List α) : Prop extends Scanned start finish tol xs done s rest where
  unmoved : ∀ p ∈ done, p.2 = 0 ∨ Q p.1
  ahead : s.shift = 0 ∨ ∀ y ∈ rest, Q y

theorem Unmoved.first {Q : α → Prop} {x : α} {xs : List α} (hsorted : (x :: xs).Pairwise fun a b => start a ≤ start b) :
    Unmoved start finish tol Q (x :: xs) [(x, 0)] ⟨0, finish x⟩ xs where
  toScanned := Scanned.first hsorted
  unmoved p hp := .inl (by rw [List.mem_singleton.mp hp])
  ahead := .inl rfl

variable [IsStrictOrderedRing K]

theorem Unmoved.step (htol : 0 ≤ tol) {Q : α → Prop} {xs rest : List α} {done : List (α × K)} {s : Scan K} {x : α}
    (hafter : AtGaps start finish tol (fun _ post => ∀ y ∈ post, Q y) xs)
    (h : Unmoved start finish tol Q xs done s (x :: rest)) :
    Unmoved start finish tol Q xs (done ++ [(x, (advance start finish tol s x).shift)]) (advance start finish tol s x)
      rest := by
  have hnext : (advance start finish tol s x).shift = 0 ∨ ∀ y ∈ x :: rest, Q y := by
    rcases h.advance_cases with ⟨hgap, -, -⟩ | ⟨-, -, heq⟩
    · exact .inr (hafter _ x rest h.whole.symm h.ne_nil hgap)
    · rw [heq]
      exact h.ahead
  refine ⟨h.toScanned.step htol, ?_, hnext.imp_right fun hall y hy => hall y (List.mem_cons_of_mem _ hy)⟩
  refine List.forall_mem_append.mpr ⟨h.unmoved, List.forall_mem_singleton.mpr ?_⟩
  exact hnext.imp_right fun hall => hall x List.mem_cons_self

/-- The scan when an item after the first is reached. -/
private theorem placed_scanned (htol : 0 ≤ tol) {xs : List α} (hsorted : xs.Pairwise fun a b => start a ≤ start b)
    {pre post : List (α × K)} {y : α × K} (heq : placed start finish tol xs = pre ++ y :: post) (hpre : pre ≠ []) :
    ∃ s, Scanned start finish tol xs pre s (y.1 :: post.map Prod.fst) ∧
      y.2 = (advance start finish tol s y.1).shift := by
  cases xs with
  | nil => simp [placed] at heq
  | cons x xs =>
    cases pre with
    | nil => exact absurd rfl hpre
    | cons p pre =>
      obtain ⟨rfl, htail⟩ := List.cons.inj heq
      exact place_rule (fun _ _ _ _ h => h.step htol) (Scanned.first hsorted) htail

/-- After a gap the item starts where some item of the run before it finished. -/
theorem placed_gap (htol : 0 ≤ tol) {xs : List α} (hsorted : xs.Pairwise fun a b => start a ≤ start b)
    {pre post : List (α × K)} {y : α × K} (heq : placed start finish tol xs = pre ++ y :: post) (hpre : pre ≠ [])
    (hgap : Gap start finish tol (pre.map Prod.fst) y.1) :
    ∃ q ∈ pre, start y.1 - y.2 = finish q.1 - q.2 ∧ q.2 < y.2 ∧ ∀ p ∈ pre, p.2 ≤ q.2 := by
  obtain ⟨s, h, hy⟩ := placed_scanned htol hsorted heq hpre
  obtain ⟨q, hq, hbusy, hshift⟩ := h.top
  rcases h.advance_cases with ⟨-, hlt, hadv⟩ | ⟨hno, -, -⟩
  · have hmoved : y.2 = s.shift + (start y.1 - s.busy) := hy.trans (congrArg Scan.shift hadv)
    refine ⟨q, hq, by linarith, by linarith, fun p hp => hshift ▸ h.shifts p hp⟩
  · exact absurd hgap hno

/-- No gap is left. -/
private theorem placed_gapless (htol : 0 ≤ tol) {xs : List α} (hsorted : xs.Pairwise fun a b => start a ≤ start b)
    {pre post : List (α × K)} {y : α × K} (heq : placed start finish tol xs = pre ++ y :: post) (hpre : pre ≠ []) :
    ∃ q ∈ pre, start y.1 - y.2 ≤ finish q.1 - q.2 + tol := by
  obtain ⟨s, h, hy⟩ := placed_scanned htol hsorted heq hpre
  obtain ⟨q, hq, hbusy, hshift⟩ := h.top
  refine ⟨q, hq, ?_⟩
  rcases h.advance_cases with ⟨-, -, hadv⟩ | ⟨-, hle, hadv⟩
  · have hmoved : y.2 = s.shift + (start y.1 - s.busy) := hy.trans (congrArg Scan.shift hadv)
    linarith
  · have hmoved : y.2 = s.shift := hy.trans (by rw [hadv])
    linarith

theorem placed_grows (finish : α → K) (htol : 0 ≤ tol) {xs : List α}
    (hsorted : xs.Pairwise fun a b => start a ≤ start b) :
    (placed start finish tol xs).Pairwise fun p q => p.2 ≤ q.2 := by
  cases xs with
  | nil => exact List.Pairwise.nil
  | cons x xs =>
    obtain ⟨s, h⟩ := placed_rule (fun _ _ _ _ h => Scanned.step htol h) (Scanned.first hsorted)
    exact h.grows

theorem placed_nonneg (htol : 0 ≤ tol) {xs : List α} (hsorted : xs.Pairwise fun a b => start a ≤ start b) :
    ∀ p ∈ placed start finish tol xs, 0 ≤ p.2 := by
  have hgrows := placed_grows finish htol hsorted
  cases xs with
  | nil => simp [placed]
  | cons x xs =>
    intro p hp
    rcases List.mem_cons.mp hp with rfl | hp
    · exact le_rfl
    · exact (List.pairwise_cons.mp hgrows).1 p hp

/-- Where all gaps are covered, the order of the starts is kept, and items that start together stay together. -/
theorem placed_ordered (htol : 0 ≤ tol) {xs : List α} (hsorted : xs.Pairwise fun a b => start a ≤ start b)
    (hcov : Covered start finish tol xs) :
    ∀ p ∈ placed start finish tol xs, ∀ q ∈ placed start finish tol xs,
      (start p.1 ≤ start q.1 → start p.1 - p.2 ≤ start q.1 - q.2) ∧ (|start p.1 - start q.1| ≤ tol → p.2 = q.2) := by
  cases xs with
  | nil => simp [placed]
  | cons x xs =>
    obtain ⟨s, h⟩ := placed_rule (fun _ _ _ _ h => Ordered.step htol hcov h) (Ordered.first hsorted)
    apply List.Pairwise.forall_of_forall_of_flip
    · exact fun p _ => ⟨fun _ => le_rfl, fun _ => rfl⟩
    · refine h.pairs.imp fun {p q} hpq => ⟨fun _ => hpq.1, fun hclose => ?_⟩
      rcases hpq.2 with heq | hlt
      · exact heq
      · linarith [(abs_le.mp hclose).1]
    · refine h.pairs.imp fun {p q} hpq => ⟨fun hle => ?_, fun hclose => ?_⟩
      · rcases hpq.2 with heq | hlt
        · rw [heq]
          linarith
        · linarith
      · rcases hpq.2 with heq | hlt
        · exact heq.symm
        · linarith [(abs_le.mp hclose).2]

/-- An item is unmoved, or has the property that all items after a gap have. -/
theorem placed_unmoved (htol : 0 ≤ tol) {xs : List α} (hsorted : xs.Pairwise fun a b => start a ≤ start b)
    {Q : α → Prop} (hafter : AtGaps start finish tol (fun _ post => ∀ y ∈ post, Q y) xs) :
    ∀ p ∈ placed start finish tol xs, p.2 = 0 ∨ Q p.1 := by
  cases xs with
  | nil => simp [placed]
  | cons x xs =>
    obtain ⟨s, h⟩ := placed_rule (fun _ _ _ _ h => Unmoved.step htol hafter h) (Unmoved.first hsorted)
    exact h.unmoved

/-- The placed items, listed by start in whatever order of equal starts, have no gap. An item before a gap starts
before the item after it, so that the gap would also part the placed items. -/
theorem placed_closed (htol : 0 ≤ tol) {xs : List α} (hsorted : xs.Pairwise fun a b => start a ≤ start b)
    (hfinished : ∀ x ∈ xs, start x ≤ finish x) {ys : List α} (hys : ys.Pairwise fun a b => start a ≤ start b)
    (hof : ∀ y ∈ ys, ∃ p ∈ placed start finish tol xs, start y = start p.1 - p.2 ∧ finish y = finish p.1 - p.2)
    (honto : ∀ p ∈ placed start finish tol xs, ∃ y ∈ ys, start y = start p.1 - p.2 ∧ finish y = finish p.1 - p.2) :
    AtGaps start finish tol (fun _ _ => False) ys := by
  rintro pre r post rfl hpre hgap
  have hlater : ∀ y ∈ post, start r ≤ start y := (List.pairwise_cons.mp (List.pairwise_append.mp hys).2.1).1
  have hbefore : ∀ p ∈ placed start finish tol xs, start p.1 - p.2 < start r → finish p.1 - p.2 + tol < start r := by
    intro p hp hlt
    obtain ⟨y, hy, hstart, hfinish⟩ := honto p hp
    rcases List.mem_append.mp hy with hy | hy
    · exact hfinish ▸ hgap y hy
    · have hle : start r ≤ start y := by
        rcases List.mem_cons.mp hy with rfl | hy
        · exact le_rfl
        · exact hlater y hy
      exact absurd (hstart ▸ hle) (not_le.mpr hlt)
  -- the first placed item that starts no earlier than `r`
  obtain ⟨p₀, hp₀, hr, -⟩ := hof r (List.mem_append_right _ List.mem_cons_self)
  obtain ⟨q, hq⟩ : ∃ q, (placed start finish tol xs).find? (fun p => start r ≤ start p.1 - p.2) = some q := by
    rw [← Option.isSome_iff_exists, List.find?_isSome]
    exact ⟨p₀, hp₀, by simpa using hr.le⟩
  obtain ⟨hstart, before, after, hsplit, hfirst⟩ := List.find?_eq_some_iff_append.mp hq
  have hne : before ≠ [] := by
    intro hnil
    obtain ⟨x, hx⟩ := List.exists_mem_of_ne_nil pre hpre
    obtain ⟨p, hp, hpstart, hpfinish⟩ := hof x (List.mem_append_left _ hx)
    have hxs : xs = q.1 :: after.map Prod.fst := by
      rw [← placed_fst start finish tol xs, hsplit, hnil]
      rfl
    have hpxs : p.1 ∈ xs := by
      rw [← placed_fst start finish tol xs]
      exact List.mem_map_of_mem hp
    have hqp : start q.1 ≤ start p.1 := by
      rw [hxs] at hsorted hpxs
      rcases List.mem_cons.mp hpxs with heq | hmem
      · rw [heq]
      · exact (List.pairwise_cons.mp hsorted).1 p.1 hmem
    have hmoved := (placed_ordered htol hsorted (covered_of_le hfinished) q (by simp [hsplit]) p hp).1 hqp
    have hstart' : start r ≤ start q.1 - q.2 := by simpa using hstart
    linarith [hgap x hx, hfinished p.1 hpxs]
  obtain ⟨p, hp, hle⟩ := placed_gapless htol hsorted hsplit hne
  have hp' : p ∈ placed start finish tol xs := hsplit ▸ List.mem_append_left _ hp
  have hlt : start p.1 - p.2 < start r := by simpa using hfirst p hp
  have hend := hbefore p hp' hlt
  have hstart' : start r ≤ start q.1 - q.2 := by simpa using hstart
  linarith

end GapClosing
