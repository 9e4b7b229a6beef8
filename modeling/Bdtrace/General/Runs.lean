import Mathlib.Data.List.Basic

/-! Runs of a system that takes one event after the other. -/
namespace Runs

variable {σ ε : Type*} (step : σ → ε → σ)

def run (s : σ) (es : List ε) : σ := es.foldl step s

/-- `P` holds at every event of the run, in the state before it. -/
def Along (P : σ → ε → Prop) : σ → List ε → Prop
  | _, [] => True
  | s, e :: es => P s e ∧ Along P (step s e) es

instance Along.decidable {P : σ → ε → Prop} [∀ s e, Decidable (P s e)] :
    (s : σ) → (es : List ε) → Decidable (Along step P s es)
  | _, [] => inferInstanceAs (Decidable True)
  | s, e :: es => @instDecidableAnd _ _ _ (Along.decidable (step s e) es)

variable {step} {P Q : σ → ε → Prop} {I : σ → Prop}

theorem Along.imp (h : ∀ s e, P s e → Q s e) {s : σ} {es : List ε} (hp : Along step P s es) : Along step Q s es := by
  induction es generalizing s with
  | nil => trivial
  | cons e es ih => exact ⟨h s e hp.1, ih hp.2⟩

theorem Along.and {s : σ} {es : List ε} (hp : Along step P s es) (hq : Along step Q s es) :
    Along step (fun s e => P s e ∧ Q s e) s es := by
  induction es generalizing s with
  | nil => trivial
  | cons e es ih => exact ⟨⟨hp.1, hq.1⟩, ih hp.2 hq.2⟩

theorem along_append (s : σ) (before after : List ε) :
    Along step P s (before ++ after) ↔ Along step P s before ∧ Along step P (run step s before) after := by
  induction before generalizing s with
  | nil => simp [Along, run]
  | cons e before ih => simp [Along, ih, run, and_assoc]

/-- A property of the whole run is one of its beginnings. -/
theorem Along.initial {s : σ} {before after : List ε} (h : Along step P s (before ++ after)) : Along step P s before :=
  ((along_append s before after).mp h).1

theorem Along.of_all (h : ∀ s e, P s e) (s : σ) (es : List ε) : Along step P s es := by
  induction es generalizing s with
  | nil => trivial
  | cons e es ih => exact ⟨h s e, ih _⟩

/-- What every step keeps holds after the run. -/
theorem run_invariant (hstep : ∀ s e, I s → P s e → I (step s e)) {s : σ} (h : I s) {es : List ε}
    (hp : Along step P s es) : I (run step s es) := by
  induction es generalizing s with
  | nil => exact h
  | cons e es ih => exact ih (hstep s e h hp.1) hp.2

/-- What follows from a kept invariant holds at every event. -/
theorem Along.of_invariant (hstep : ∀ s e, I s → P s e → I (step s e)) (hq : ∀ s e, I s → P s e → Q s e) {s : σ}
    (h : I s) {es : List ε} (hp : Along step P s es) : Along step Q s es := by
  induction es generalizing s with
  | nil => trivial
  | cons e es ih => exact ⟨hq s e h hp.1, ih (hstep s e h hp.1) hp.2⟩

/-- Two properties that are the same at every event where the invariant holds, which the first one keeps. -/
theorem Along.iff_of_invariant {R : σ → ε → Prop} (hstep : ∀ s e, I s → P s e → Q s e → I (step s e))
    (hiff : ∀ s e, I s → P s e → (Q s e ↔ R s e)) {s : σ} (h : I s) {es : List ε} (hp : Along step P s es) :
    Along step Q s es ↔ Along step R s es := by
  induction es generalizing s with
  | nil => exact Iff.rfl
  | cons e es ih =>
    have hhead := hiff s e h hp.1
    constructor
    · intro hq
      exact ⟨hhead.mp hq.1, (ih (hstep s e h hp.1 hq.1) hp.2).mp hq.2⟩
    · intro hr
      exact ⟨hhead.mpr hr.1, (ih (hstep s e h hp.1 (hhead.mpr hr.1)) hp.2).mpr hr.2⟩

end Runs
