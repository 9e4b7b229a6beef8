import Bdtrace.View.RedirectFixup
import Mathlib.Logic.Equiv.Basic

/-! The dependency graph under a renaming of pids. -/
namespace Bdtrace
open Std (TreeMap TreeSet)

namespace Tables

/-- The same trace with other pids. -/
def renamePids (ρ : Int → Int) (t : Tables) : Tables :=
  { t with
    processes := t.processes.map fun r => { r with pid := ρ r.pid, ppid := ρ r.ppid }
    fileAccesses := t.fileAccesses.map fun a => { a with pid := ρ a.pid }
    failedAccesses := t.failedAccesses.map fun a => { a with pid := ρ a.pid } }

/-- A process with outputs, a child that takes them over, and a child of that one that takes over in turn. -/
structure Relay (t : Tables) (owner middle heir : Int) : Prop where
  outputs : ∃ file, t.Outputs owner file
  first : t.Child owner middle
  middleTakes : t.Takes middle
  second : t.Child middle heir
  heirTakes : t.Takes heir

variable {ρ : Int → Int} {t : Tables}

private theorem accesses_renamePids :
    (t.renamePids ρ).accesses = t.accesses.map fun a => { a with pid := ρ a.pid } := by
  simp only [accesses, renamePids, List.map_map]
  rfl

private theorem rows_renamePids (P : StoredAccess → Prop) (hP : ∀ a p, P { a with pid := p } ↔ P a) (q : Int) :
    (∃ a ∈ (t.renamePids ρ).accesses, a.pid = q ∧ P a) ↔ ∃ p, ρ p = q ∧ ∃ a ∈ t.accesses, a.pid = p ∧ P a := by
  simp only [accesses_renamePids, List.mem_map]
  constructor
  · rintro ⟨_, ⟨a, ha, rfl⟩, rfl, h⟩
    exact ⟨a.pid, rfl, a, ha, rfl, (hP a _).mp h⟩
  · rintro ⟨_, rfl, a, ha, rfl, h⟩
    exact ⟨_, ⟨a, ha, rfl⟩, rfl, (hP a _).mpr h⟩

private theorem outputs_renamePids (q : Int) (f : Str) : (t.renamePids ρ).Outputs q f ↔ ∃ p, ρ p = q ∧ t.Outputs p f :=
  rows_renamePids (fun a => a.path = some f ∧ isOutputMode a.mode = true) (fun _ _ => Iff.rfl) q

private theorem reads_renamePids (q : Int) (f : Str) : (t.renamePids ρ).Reads q f ↔ ∃ p, ρ p = q ∧ t.Reads p f :=
  rows_renamePids (fun a => a.path = some f ∧ isInputMode a.mode = true) (fun _ _ => Iff.rfl) q

private theorem child_renamePids (q d : Int) : (t.renamePids ρ).Child q d ↔ ∃ p c, ρ p = q ∧ ρ c = d ∧ t.Child p c := by
  simp only [Child, renamePids, List.mem_map]
  constructor
  · rintro ⟨_, ⟨r, hr, rfl⟩, rfl, rfl⟩
    exact ⟨r.ppid, r.pid, rfl, rfl, r, hr, rfl, rfl⟩
  · rintro ⟨_, _, rfl, rfl, r, hr, rfl, rfl⟩
    exact ⟨_, ⟨r, hr, rfl⟩, rfl, rfl⟩

private theorem takes_renamePids (hρ : Function.Injective ρ) (p : Int) : (t.renamePids ρ).Takes (ρ p) ↔ t.Takes p := by
  simp only [Takes, reads_renamePids, outputs_renamePids, hρ.eq_iff, exists_eq_left]

private theorem pids_renamePids (hρ : Function.Injective ρ) (hk : t.pids.Nodup) : (t.renamePids ρ).pids.Nodup := by
  have hmap : (t.renamePids ρ).pids = t.pids.map ρ := by
    simp only [pids, renamePids, List.map_map]
    rfl
  rw [hmap]
  exact hk.map hρ

private theorem Relay.renamePids (hρ : Function.Injective ρ) {owner middle heir : Int} (h : t.Relay owner middle heir) :
    (t.renamePids ρ).Relay (ρ owner) (ρ middle) (ρ heir) := by
  obtain ⟨file, hfile⟩ := h.outputs
  refine ⟨⟨file, (outputs_renamePids _ _).mpr ⟨owner, rfl, hfile⟩⟩,
    (child_renamePids _ _).mpr ⟨_, _, rfl, rfl, h.first⟩,
    (takes_renamePids hρ _).mpr h.middleTakes, (child_renamePids _ _).mpr ⟨_, _, rfl, rfl, h.second⟩,
    (takes_renamePids hρ _).mpr h.heirTakes⟩

private theorem relay_renamePids (hρ : Function.Injective ρ) {a b c : Int} (h : (t.renamePids ρ).Relay a b c) :
    ∃ owner middle heir, t.Relay owner middle heir := by
  obtain ⟨file, hfile'⟩ := h.outputs
  obtain ⟨owner, rfl, hfile⟩ := (outputs_renamePids _ _).mp hfile'
  obtain ⟨owner', middle, howner, rfl, hfirst⟩ := (child_renamePids _ _).mp h.first
  obtain ⟨middle', heir, hmiddle, rfl, hsecond⟩ := (child_renamePids _ _).mp h.second
  obtain rfl := hρ howner
  obtain rfl := hρ hmiddle
  exact ⟨owner', middle', heir, ⟨file, hfile⟩, hfirst, (takes_renamePids hρ _).mp h.middleTakes, hsecond,
    (takes_renamePids hρ _).mp h.heirTakes⟩

/-- Without a relay each heir inherits from its parent. -/
private theorem inherits_iff (hno : ∀ owner middle heir, ¬ t.Relay owner middle heir) (owner heir : Int) :
    t.Inherits owner heir ↔ (∃ file, t.Outputs owner file) ∧ t.Child owner heir ∧ t.Takes heir := by
  constructor
  · intro h
    induction h with
    | child hfile hchild htakes => exact ⟨⟨_, hfile⟩, hchild, htakes⟩
    | further h _ _ hchild htakes ih => exact absurd ⟨ih.1, ih.2.1, h.takes, hchild, htakes⟩ (hno _ _ _)
  · rintro ⟨⟨file, hfile⟩, hchild, htakes⟩
    exact .child hfile hchild htakes

end Tables

namespace DependencyGraph

/-- The same outputs, writers and readers up to the renaming. -/
structure Renamed (ρ : Int → Int) (g g' : DependencyGraph) : Prop where
  outputs : ∀ q f, f ∈ g'.outputsOf q ↔ ∃ p, ρ p = q ∧ f ∈ g.outputsOf p
  writers : ∀ f q, q ∈ g'.writersOf f ↔ ∃ p, ρ p = q ∧ p ∈ g.writersOf f
  readers : ∀ f q, q ∈ g'.readersOf f ↔ ∃ p, ρ p = q ∧ p ∈ g.readersOf f

variable {t : Tables}

/-- In increasing order the outputs arrive at the end of a relay. -/
private theorem relay_handed (hk : t.pids.Nodup) {owner middle heir : Int} (h : t.Relay owner middle heir)
    (hlt : owner < middle)
    {f : Str} (hf : t.Outputs owner f) : f ∈ (buildDependencyGraph t).outputsOf heir :=
  (mem_outputsOf hk f heir).mpr
    (.inr ⟨owner, .further (.child hf h.first h.middleTakes) h.first hlt h.second h.heirTakes, hf⟩)

/-- In decreasing order they do not. -/
private theorem relay_cut (hk : t.pids.Nodup) {owner middle heir : Int} (h : t.Relay owner middle heir)
    (hgt : middle < owner)
    (f : Str) : f ∉ (buildDependencyGraph t).outputsOf heir := by
  rw [mem_outputsOf hk]
  rintro (hown | ⟨x, hi, -⟩)
  · exact h.heirTakes.2 f hown
  · cases hi with
    | child hfile hchild _ =>
      obtain rfl := Tables.child_unique t hk hchild h.second
      exact h.middleTakes.2 _ hfile
    | further _ hparent hlt hchild _ =>
      obtain rfl := Tables.child_unique t hk hchild h.second
      obtain rfl := Tables.child_unique t hk hparent h.first
      omega

/-- The graph is the same under every renaming of pids exactly when no process takes over outputs from one
that took them over itself. -/
theorem independent_of_pids_iff (t : Tables) (hk : t.pids.Nodup) :
    (∀ ρ : Int → Int, Function.Injective ρ →
      Renamed ρ (buildDependencyGraph t) (buildDependencyGraph (t.renamePids ρ))) ↔
      ∀ owner middle heir, ¬ t.Relay owner middle heir := by
  constructor
  · intro hall owner middle heir h
    obtain ⟨f, hf⟩ := h.outputs
    -- the renaming that turns the order of the pids around
    have hρ : Function.Injective fun x : Int => -1 - x := fun x y hxy => by
      have hxy : -1 - x = -1 - y := hxy
      omega
    have hk' := Tables.pids_renamePids hρ hk
    have h' := h.renamePids hρ
    have hout := (hall _ hρ).outputs (-1 - heir) f
    simp only [hρ.eq_iff, exists_eq_left] at hout
    rcases lt_trichotomy owner middle with hlt | rfl | hgt
    · exact relay_cut hk' h' (by omega) f (hout.mpr (relay_handed hk h hlt hf))
    · exact h.middleTakes.2 f hf
    · have hf' := (Tables.outputs_renamePids (-1 - owner) f).mpr ⟨owner, rfl, hf⟩
      exact relay_cut hk h hgt f (hout.mp (relay_handed hk' h' (by omega) hf'))
  · intro hno ρ hρ
    have hno' : ∀ a b c, ¬ (t.renamePids ρ).Relay a b c := fun a b c h => by
      obtain ⟨owner, middle, heir, h⟩ := Tables.relay_renamePids hρ h
      exact hno owner middle heir h
    have hk' := Tables.pids_renamePids hρ hk
    have hout : ∀ q f, f ∈ (buildDependencyGraph (t.renamePids ρ)).outputsOf q ↔
        ∃ p, ρ p = q ∧ f ∈ (buildDependencyGraph t).outputsOf p := fun q f => by
      simp only [mem_outputsOf hk, mem_outputsOf hk', Tables.inherits_iff hno, Tables.inherits_iff hno']
      constructor
      · rintro (hown' | ⟨a, ⟨-, hchild', htakes⟩, hf'⟩)
        · obtain ⟨p, rfl, hown⟩ := (Tables.outputs_renamePids _ _).mp hown'
          exact ⟨p, rfl, .inl hown⟩
        · obtain ⟨owner, p, rfl, rfl, hchild⟩ := (Tables.child_renamePids _ _).mp hchild'
          obtain ⟨owner', heq, hf⟩ := (Tables.outputs_renamePids _ _).mp hf'
          obtain rfl := hρ heq
          exact ⟨p, rfl, .inr ⟨owner', ⟨⟨f, hf⟩, hchild, (Tables.takes_renamePids hρ p).mp htakes⟩, hf⟩⟩
      · rintro ⟨p, rfl, hown | ⟨owner, ⟨-, hchild, htakes⟩, hf⟩⟩
        · exact .inl ((Tables.outputs_renamePids _ _).mpr ⟨p, rfl, hown⟩)
        · have hf' := (Tables.outputs_renamePids (ρ owner) f).mpr ⟨owner, rfl, hf⟩
          exact .inr ⟨ρ owner, ⟨⟨f, hf'⟩, (Tables.child_renamePids _ _).mpr ⟨owner, p, rfl, rfl, hchild⟩,
            (Tables.takes_renamePids hρ p).mpr htakes⟩, hf'⟩
    refine ⟨hout, fun f q => ?_, fun f q => ?_⟩
    · simp only [mem_writersOf hk, mem_writersOf hk', hout]
    · simp only [mem_readersOf, Tables.reads_renamePids]

/-- A shell redirects its output to a child. -/
private def redirect : Tables where
  processes := [{ pid := 10, ppid := 1 }, { pid := 20, ppid := 10 }]
  files := [⟨1, ['o']⟩, ⟨2, ['i']⟩]
  fileAccesses := [⟨1, 10, 1, 1, 3, 0⟩, ⟨2, 20, 2, 0, 3, 0⟩]

theorem redirect_independent : Renamed (Equiv.swap (10 : Int) 25) (buildDependencyGraph redirect)
    (buildDependencyGraph (redirect.renamePids (Equiv.swap (10 : Int) 25))) := by
  refine (independent_of_pids_iff redirect (by decide)).mpr ?_ _ (Equiv.injective _)
  intro owner middle heir h
  obtain ⟨r, hr, rfl, rfl⟩ := h.first
  obtain ⟨r', hr', hparent, -⟩ := h.second
  have hmiddle : ∀ r ∈ redirect.processes, ∀ r' ∈ redirect.processes, r'.ppid = r.pid → r.pid = 10 := by decide
  apply h.middleTakes.2 ['o']
  rw [hmiddle r hr r' hr' hparent, Tables.Outputs]
  decide

/-- The child hands the redirected output to a child of its own. -/
private def pipeline : Tables where
  processes := [{ pid := 10, ppid := 1 }, { pid := 20, ppid := 10 }, { pid := 30, ppid := 20 }]
  files := [⟨1, ['o']⟩, ⟨2, ['i']⟩]
  fileAccesses := [⟨1, 10, 1, 1, 3, 0⟩, ⟨2, 20, 2, 0, 3, 0⟩, ⟨3, 30, 2, 0, 3, 0⟩]

/-- With the pid of the shell above those of its children, the last of them loses its output. -/
theorem pipeline_dependent : pipeline.pids.Nodup ∧ Function.Injective (Equiv.swap (10 : Int) 25) ∧
    ¬ Renamed (Equiv.swap (10 : Int) 25) (buildDependencyGraph pipeline)
      (buildDependencyGraph (pipeline.renamePids (Equiv.swap (10 : Int) 25))) := by
  refine ⟨by decide, Equiv.injective _, fun h => ?_⟩
  have hout := (h.outputs 30 ['o']).mpr ⟨30, by decide, by decide⟩
  exact absurd hout (by decide)

end DependencyGraph
end Bdtrace
