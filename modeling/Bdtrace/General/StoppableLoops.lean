import Mathlib.Data.Option.Basic

/-! Loops whose steps can stop the program: when they come to their end, and with what. -/
namespace StoppableLoops
variable {α β ε : Type}

/-! ### Steps without a result -/

theorem isSome_mapM {f : α → Option β} {l : List α} : (l.mapM f).isSome ↔ ∀ a ∈ l, (f a).isSome := by
  induction l with
  | nil => simp
  | cons a l ih =>
    rw [List.mapM_cons, List.forall_mem_cons, ← ih]
    cases f a with
    | none => simp
    | some b => cases l.mapM f <;> simp

theorem isSome_foldlM {f : β → α → Option β} {l : List α} (h : ∀ b, ∀ a ∈ l, (f b a).isSome) (b : β) :
    (l.foldlM f b).isSome := by
  induction l generalizing b with
  | nil => rfl
  | cons a l ih =>
    obtain ⟨b', hb'⟩ := Option.isSome_iff_exists.mp (h b a List.mem_cons_self)
    rw [List.foldlM_cons, hb']
    exact ih (fun b c hc => h b c (List.mem_cons_of_mem _ hc)) b'

theorem mapM_eq_some {f : α → Option β} {g : α → β} {l : List α} (h : ∀ a ∈ l, f a = some (g a)) :
    l.mapM f = some (l.map g) := by
  induction l with
  | nil => rfl
  | cons a l ih =>
    rw [List.mapM_cons, h a List.mem_cons_self, ih fun b hb => h b (List.mem_cons_of_mem a hb)]
    rfl

theorem mapM_congr {f g : α → Option β} {l : List α} (h : ∀ a ∈ l, f a = g a) : l.mapM f = l.mapM g := by
  induction l with
  | nil => rfl
  | cons a l ih =>
    rw [List.mapM_cons, List.mapM_cons, h a List.mem_cons_self, ih fun b hb => h b (List.mem_cons_of_mem a hb)]

/-- A loop that comes to its end keeps the invariant of its steps, and each of them was a good one. -/
theorem foldlM_invariant {f : β → α → Option β} {I : β → Prop} {G : α → Prop}
    (h : ∀ b a b', I b → f b a = some b' → G a ∧ I b') {l : List α} {b r : β} (hb : I b) (hr : l.foldlM f b = some r) :
    (∀ a ∈ l, G a) ∧ I r := by
  induction l generalizing b with
  | nil =>
    obtain rfl := Option.some.inj hr
    exact ⟨fun a ha => (by cases ha), hb⟩
  | cons a l ih =>
    rw [List.foldlM_cons] at hr
    obtain ⟨b', hb', hrest⟩ := Option.bind_eq_some_iff.mp hr
    obtain ⟨ha, hI⟩ := h b a b' hb hb'
    obtain ⟨hl, hI'⟩ := ih hI hrest
    exact ⟨List.forall_mem_cons.mpr ⟨ha, hl⟩, hI'⟩

/-! ### Steps with errors -/

theorem mapM_ok {f : α → Except ε β} {v : α → β} {l : List α} (h : ∀ a ∈ l, f a = .ok (v a)) :
    l.mapM f = .ok (l.map v) := by
  induction l with
  | nil => rfl
  | cons a l ih =>
    rw [List.mapM_cons, h a List.mem_cons_self, ih fun b hb => h b (List.mem_cons_of_mem _ hb)]
    rfl

/-- Where all that can go wrong is one error, a step with it stops the loop. -/
theorem mapM_error {f : α → Except ε β} {l : List α} {e : ε} (hsame : ∀ b ∈ l, ∀ d, f b = .error d → d = e) {a : α}
    (ha : a ∈ l) (hf : f a = .error e) : l.mapM f = .error e := by
  induction l with
  | nil => cases ha
  | cons b l ih =>
    rw [List.mapM_cons]
    cases hb : f b with
    | error d =>
      obtain rfl := hsame b List.mem_cons_self d hb
      rfl
    | ok v =>
      have hal : a ∈ l := (List.mem_cons.mp ha).resolve_left fun heq => by
        rw [heq, hb] at hf
        cases hf
      rw [ih (fun c hc => hsame c (List.mem_cons_of_mem _ hc)) hal]
      rfl

theorem bind_ne {x : Except ε α} {f : α → Except ε β} {e : ε} (hx : x ≠ .error e) (hf : ∀ a, f a ≠ .error e) :
    (x >>= f) ≠ .error e := by
  cases x with
  | error d => exact fun h => hx (congrArg Except.error (Except.error.inj h))
  | ok a => exact hf a

theorem mapM_ne {f : α → Except ε β} {l : List α} {e : ε} (h : ∀ a ∈ l, f a ≠ .error e) : l.mapM f ≠ .error e := by
  induction l with
  | nil => exact fun h => by cases h
  | cons a l ih =>
    rw [List.mapM_cons]
    apply bind_ne (h a List.mem_cons_self)
    intro b
    apply bind_ne (ih fun c hc => h c (List.mem_cons_of_mem _ hc))
    intro bs
    exact fun h => by cases h

end StoppableLoops
