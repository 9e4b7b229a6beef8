import Mathlib.Algebra.GroupWithZero.Nat
import Mathlib.Algebra.Order.BigOperators.Group.List
import Mathlib.Algebra.Order.Group.Nat
import Mathlib.Logic.Relation
import Mathlib.Order.WellFoundedSet

/-! First-in first-out worklists without a visited set: on a well-founded relation they end and
visit what is reachable, on a relation with an endless path they never end. -/
namespace Worklist
variable {α : Type*} (next : α → List α)

/-- The popped elements in order, or `none` when the fuel is too small. -/
def walk : Nat → List α → Option (List α)
  | _, [] => some []
  | 0, _ :: _ => none
  | fuel + 1, a :: queue => (walk fuel (queue ++ next a)).map (a :: ·)

/-- `b` is pushed when `a` is popped. -/
def Child (b a : α) : Prop := b ∈ next a

def Reaches (a x : α) : Prop := Relation.ReflTransGen (fun a b => b ∈ next a) a x

/-- A relation with finitely many parents and no cycle is well founded. -/
theorem wellFounded_of_acyclic {r : α → α → Prop} (s : Finset α) (hs : ∀ a b, r a b → a ∈ s)
    (h : ∀ a, ¬ Relation.TransGen r a a) : WellFounded fun b a => r a b := by
  have hwf : WellFounded fun b a : s => Relation.TransGen r a.1 b.1 := by
    have : IsTrans s fun b a => Relation.TransGen r a.1 b.1 := ⟨fun _ _ _ hcb hba => hba.trans hcb⟩
    have : Std.Irrefl fun b a : s => Relation.TransGen r a.1 b.1 := ⟨fun a => h a.1⟩
    exact Finite.wellFounded_of_trans_of_irrefl _
  have hleaf : ∀ a, a ∉ s → Acc (fun b a => r a b) a := fun a ha => Acc.intro a fun b hab => absurd (hs a b hab) ha
  have hacc : ∀ a : s, Acc (fun b a => r a b) a.1 := fun a => by
    induction a using hwf.induction with
    | _ a ih =>
      refine Acc.intro _ fun b hb => ?_
      by_cases hm : b ∈ s
      · exact ih ⟨b, hm⟩ (.single hb)
      · exact hleaf b hm
  refine ⟨fun a => ?_⟩
  by_cases hm : a ∈ s
  · exact hacc ⟨a, hm⟩
  · exact hleaf a hm

section
variable {next}

/-- Where an element has one parent at most, one of two elements above a third is above the other. -/
theorem Reaches.comparable (hparent : ∀ a b c, c ∈ next a → c ∈ next b → a = b) {a b x : α} (ha : Reaches next a x)
    (hb : Reaches next b x) : Reaches next a b ∨ Reaches next b a := by
  have hunique : Relator.RightUnique (Function.swap fun a b => b ∈ next a) := fun x a b ha hb => hparent a b x ha hb
  have ha : Relation.ReflTransGen (fun a b => b ∈ next a) a x := ha
  have hb : Relation.ReflTransGen (fun a b => b ∈ next a) b x := hb
  rcases Relation.ReflTransGen.total_of_right_unique hunique ha.swap hb.swap with hab | hba
  · exact .inr hab.swap
  · exact .inl hba.swap

/-- A relation along which a rank rises has no cycle. -/
theorem acyclic_of_rank {β : Type*} [Preorder β] {rel : α → α → Prop} (rank : α → β)
    (h : ∀ a b, rel a b → rank a < rank b)
    (a : α) : ¬ Relation.TransGen rel a a := by
  intro ha
  have hlt : Relation.TransGen (· < ·) (rank a) (rank a) := Relation.TransGen.lift rank h a a ha
  rw [Relation.transGen_eq_self] at hlt
  exact lt_irrefl _ hlt

theorem child_attach {a : α} (b : {b // b ∈ next a}) : Child next b.1 a := b.2

/-- The number of pops that one element causes. -/
noncomputable def weight (hwf : WellFounded (Child next)) : α → Nat :=
  hwf.fix fun a ih => ((next a).attach.map fun b => ih b.1 (child_attach b)).sum + 1

theorem weight_eq (hwf : WellFounded (Child next)) (a : α) :
    weight hwf a = ((next a).map (weight hwf)).sum + 1 := by
  rw [weight, hwf.fix_eq]
  exact congrArg (fun l => l.sum + 1) (List.attach_map_val (f := weight hwf))

theorem weight_lt_of_child (hwf : WellFounded (Child next)) {a b : α} (h : b ∈ next a) :
    weight hwf b < weight hwf a := by
  rw [weight_eq hwf a]
  exact Nat.lt_succ_of_le (List.le_sum_of_mem (List.mem_map_of_mem h))

theorem weight_lt (hwf : WellFounded (Child next)) {a b : α}
    (h : Relation.TransGen (fun a b => b ∈ next a) a b) : weight hwf b < weight hwf a := by
  induction h with
  | single hab => exact weight_lt_of_child hwf hab
  | tail _ hbc ih => exact (weight_lt_of_child hwf hbc).trans ih

theorem walk_total (hwf : WellFounded (Child next)) {fuel : Nat} {queue : List α}
    (h : (queue.map (weight hwf)).sum ≤ fuel) : ∃ l, walk next fuel queue = some l := by
  induction fuel generalizing queue with
  | zero =>
    cases queue with
    | nil => exact ⟨[], rfl⟩
    | cons a queue =>
      rw [List.map_cons, List.sum_cons, weight_eq] at h
      omega
  | succ fuel ih =>
    cases queue with
    | nil => exact ⟨[], rfl⟩
    | cons a queue =>
      rw [List.map_cons, List.sum_cons, weight_eq] at h
      have hrest : ((queue ++ next a).map (weight hwf)).sum ≤ fuel := by
        rw [List.map_append, List.sum_append]
        omega
      obtain ⟨l, hl⟩ := ih hrest
      exact ⟨a :: l, by rw [walk, hl, Option.map_some]⟩

/-- What was queued and everything reachable from it is popped, and nothing else. -/
theorem mem_walk {fuel : Nat} {queue l : List α} (h : walk next fuel queue = some l) (x : α) :
    x ∈ l ↔ ∃ a ∈ queue, Reaches next a x := by
  induction fuel generalizing queue l with
  | zero =>
    cases queue with
    | nil =>
      obtain rfl := Option.some.inj h
      simp
    | cons a queue => cases h
  | succ fuel ih =>
    cases queue with
    | nil =>
      obtain rfl := Option.some.inj h
      simp
    | cons a queue =>
      rw [walk, Option.map_eq_some_iff] at h
      obtain ⟨l', hl', rfl⟩ := h
      rw [List.mem_cons, ih hl']
      constructor
      · rintro (rfl | ⟨b, hb, hreach⟩)
        · exact ⟨x, List.mem_cons_self, .refl⟩
        · rcases List.mem_append.mp hb with hb | hb
          · exact ⟨b, List.mem_cons_of_mem _ hb, hreach⟩
          · exact ⟨a, List.mem_cons_self, .head hb hreach⟩
      · rintro ⟨b, hb, hreach⟩
        rcases List.mem_cons.mp hb with rfl | hb
        · rcases hreach.cases_head with rfl | ⟨c, hc, hreach⟩
          · exact .inl rfl
          · exact .inr ⟨c, List.mem_append_right _ hc, hreach⟩
        · exact .inr ⟨b, List.mem_append_left _ hb, hreach⟩

/-- An element from which a path never ends keeps the walk going. -/
theorem walk_endless {Bad : α → Prop} (hbad : ∀ a, Bad a → ∃ b ∈ next a, Bad b) (fuel : Nat) {queue : List α}
    (h : ∃ a ∈ queue, Bad a) : walk next fuel queue = none := by
  induction fuel generalizing queue with
  | zero =>
    obtain ⟨a, ha, -⟩ := h
    cases queue with
    | nil => cases ha
    | cons b queue => rfl
  | succ fuel ih =>
    obtain ⟨a, ha, hba⟩ := h
    cases queue with
    | nil => cases ha
    | cons b queue =>
      have hrest : ∃ c ∈ queue ++ next b, Bad c := by
        rcases List.mem_cons.mp ha with rfl | ha
        · obtain ⟨c, hc, hbc⟩ := hbad a hba
          exact ⟨c, List.mem_append_right _ hc, hbc⟩
        · exact ⟨a, List.mem_append_left _ ha, hba⟩
      rw [walk, ih hrest, Option.map_none]

/-- An element from which a cycle is reachable keeps the walk going. -/
theorem walk_cycle {a x : α} (hreach : Reaches next a x) (hcycle : Relation.TransGen (fun a b => b ∈ next a) x x)
    (fuel : Nat) {queue : List α} (ha : a ∈ queue) : walk next fuel queue = none := by
  refine @walk_endless _ _ (fun a => Relation.TransGen (fun a b => b ∈ next a) a x) ?_ fuel _ ⟨a, ha, ?_⟩
  · intro b hb
    obtain ⟨c, hc, hcx⟩ := Relation.TransGen.head'_iff.mp hb
    exact ⟨c, hc, Relation.TransGen.trans_right hcx hcycle⟩
  · exact Relation.TransGen.trans_right hreach hcycle

/-- The walk looks only at what is reachable. -/
private theorem walk_congr {next' : α → List α} {fuel : Nat} {queue : List α}
    (h : ∀ a ∈ queue, ∀ x, Reaches next a x → next' x = next x) : walk next' fuel queue = walk next fuel queue := by
  induction fuel generalizing queue with
  | zero => cases queue <;> rfl
  | succ fuel ih =>
    cases queue with
    | nil => rfl
    | cons a queue =>
      have hrest : ∀ b ∈ queue ++ next a, ∀ x, Reaches next b x → next' x = next x := fun b hb x hx => by
        rcases List.mem_append.mp hb with hb | hb
        · exact h b (List.mem_cons_of_mem _ hb) x hx
        · exact h a List.mem_cons_self x (.head hb hx)
      rw [walk, walk, h a List.mem_cons_self a .refl, ih hrest]

/-- On a finite graph a walk that meets no cycle ends. -/
theorem walk_total_of_acyclic (s : Finset α) (hs : ∀ a b, b ∈ next a → a ∈ s) {queue : List α}
    (h : ∀ a ∈ queue, ∀ x, Reaches next a x → ¬ Relation.TransGen (fun a b => b ∈ next a) x x) :
    ∃ n, ∀ fuel, n ≤ fuel → ∃ l, walk next fuel queue = some l := by
  classical
  let near : α → List α := fun x => if ∃ a ∈ queue, Reaches next a x then next x else []
  have hnear : ∀ {x y}, y ∈ near x → (∃ a ∈ queue, Reaches next a x) ∧ y ∈ next x := fun {x y} hy => by
    by_cases hx : ∃ a ∈ queue, Reaches next a x
    · exact ⟨hx, by simpa only [near, if_pos hx] using hy⟩
    · simp only [near, if_neg hx, List.not_mem_nil] at hy
  have hwf : WellFounded (Child near) := by
    apply wellFounded_of_acyclic s fun a b hb => hs a b (hnear hb).2
    intro x hx
    obtain ⟨y, hy, -⟩ := Relation.TransGen.head'_iff.mp hx
    obtain ⟨a, ha, hreach⟩ := (hnear hy).1
    exact h a ha x hreach (Relation.TransGen.mono (fun _ _ hb => (hnear hb).2) x x hx)
  refine ⟨(queue.map (weight hwf)).sum, fun fuel hfuel => ?_⟩
  obtain ⟨l, hl⟩ := walk_total hwf hfuel
  refine ⟨l, (walk_congr fun a ha x hx => ?_).symm.trans hl⟩
  exact if_pos ⟨a, ha, hx⟩

end
end Worklist
