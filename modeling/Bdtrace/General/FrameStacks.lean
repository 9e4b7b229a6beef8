import Mathlib.Data.List.Basic

/-! A machine that works off a stack of frames, each of which may push others: callbacks that call back. -/
namespace FrameStacks

variable {σ φ : Type*} (advance : σ → φ → List φ × σ)

/-- Until the stack is empty; `none` when that takes more steps than the fuel. -/
def run : Nat → List φ → σ → Option σ
  | _, [], s => some s
  | 0, _ :: _, _ => none
  | fuel + 1, f :: rest, s => run fuel ((advance s f).1 ++ rest) (advance s f).2

variable {advance}

/-- What each step keeps while a measure decreases holds at the end, which is reached. -/
theorem run_total {K : List φ → σ → Prop} {measure : List φ → σ → Nat} (hstep : ∀ f rest s, K (f :: rest) s →
    K ((advance s f).1 ++ rest) (advance s f).2 ∧ measure ((advance s f).1 ++ rest)
      (advance s f).2 < measure (f :: rest) s)
    {fuel : Nat} {frames : List φ} {s : σ} (h : K frames s) (hfuel : measure frames s ≤ fuel) :
    ∃ s', run advance fuel frames s = some s' ∧ K [] s' := by
  induction fuel generalizing frames s with
  | zero =>
    cases frames with
    | nil => exact ⟨s, rfl, h⟩
    | cons f rest =>
      have hlt := (hstep f rest s h).2
      omega
  | succ fuel ih =>
    cases frames with
    | nil => exact ⟨s, rfl, h⟩
    | cons f rest =>
      obtain ⟨hkeep, hlt⟩ := hstep f rest s h
      exact ih hkeep (by omega)

end FrameStacks
