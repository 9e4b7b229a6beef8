import Bdtrace.General.Runs
import Bdtrace.Session.Incarnations
import Bdtrace.Tracer.EventLoop
import Mathlib.Data.Finset.Card
import Mathlib.Data.Finset.Option
import Mathlib.Order.Interval.Finset.Nat

/-! Traced tasks with kernel pid reuse: which reports can follow each other, and the tracer that
handles them. -/
namespace Bdtrace

/-- The tasks of a run: the root is 0, and a task comes after the task that forks it and after the
earlier holders of its pid. -/
structure Family where
  pid : Nat → Int
  parent : Nat → Nat
  tracer : Int
  parent_lt : ∀ c, 0 < c → parent c < c
  pid_range : ∀ c, 0 < pid c ∧ pid c < 10000000
  tracer_range : 0 < tracer ∧ tracer < 10000000
  pid_ne_tracer : ∀ c, pid c ≠ tracer

/-- One event of the traced tasks or of the tracer. `report` is what `waitpid` returns, other than a
fork event; a task can also vanish without a report. -/
inductive TaskEvent where
  | spawn (c : Nat)
  | forkEvent (t c : Nat) (cwd cmdline : Str) (view : TraceeView)
  | report (t : Nat) (status : WaitStatus) (view : TraceeView)
  | vanish (t : Nat)

/-- The task that an event comes from, when the tracer sees it. -/
def TaskEvent.reporter : TaskEvent → Option Nat
  | .report t .. | .forkEvent t .. => some t
  | .spawn _ | .vanish _ => none

def TaskEvent.forked : TaskEvent → Option Nat
  | .forkEvent _ c .. => some c
  | _ => none

/-- The tasks that exist or existed, those whose fork event was reported, those that are gone, and
those of which the exit was reported. -/
structure TaskWorld where
  spawned : Finset Nat := {0}
  reported : Finset Nat := {0}
  ended : Finset Nat := ∅
  exited : Finset Nat := ∅

structure Tracing where
  world : TaskWorld := {}
  backend : PtraceBackend
  calls : List SessionCall

namespace TaskWorld

def Active (w : TaskWorld) (t : Nat) : Prop := t ∈ w.spawned ∧ t ∉ w.ended

instance (w : TaskWorld) (t : Nat) : Decidable (w.Active t) := inferInstanceAs (Decidable (_ ∧ _))

def step (w : TaskWorld) : TaskEvent → TaskWorld
  | .spawn c => { w with spawned := insert c w.spawned }
  | .forkEvent _ c .. => { w with reported := insert c w.reported }
  | .report t status _ =>
    if status.ends then { w with ended := insert t w.ended, exited := insert t w.exited } else w
  | .vanish t => { w with ended := insert t w.ended }

theorem spawned_subset (w : TaskWorld) (e : TaskEvent) : w.spawned ⊆ (w.step e).spawned := by
  cases e with
  | spawn c => exact Finset.subset_insert c _
  | report t status view =>
    simp only [step]
    split <;> rfl
  | _ => rfl

theorem spawned_step (w : TaskWorld) {e : TaskEvent} (h : ∀ c, e ≠ .spawn c) : (w.step e).spawned = w.spawned := by
  cases e with
  | spawn c => exact absurd rfl (h c)
  | report t status view =>
    simp only [step]
    split <;> rfl
  | _ => rfl

theorem ended_subset (w : TaskWorld) (e : TaskEvent) : w.ended ⊆ (w.step e).ended := by
  cases e with
  | report t status view =>
    simp only [step]
    split
    · exact Finset.subset_insert t _
    · rfl
  | vanish t => exact Finset.subset_insert t _
  | _ => rfl

theorem reported_step (w : TaskWorld) (e : TaskEvent) : (w.step e).reported = w.reported ∪ e.forked.toFinset := by
  cases e with
  | forkEvent t c cwd cmdline view => simp [step, TaskEvent.forked, Finset.union_comm w.reported]
  | report t status view =>
    simp only [step]
    split <;> simp [TaskEvent.forked]
  | _ => simp [step, TaskEvent.forked]

end TaskWorld

namespace Family
variable (F : Family)

/-- How often the task's pid was in use before. -/
def rank (c : Nat) : Nat := ((Finset.range c).filter fun d => F.pid d = F.pid c).card

/-- The process that a task is: the holders of a pid in turn. -/
def incarnation (c : Nat) : Incarnation := ⟨F.pid c, F.rank c⟩

def id (c : Nat) : Int := (F.incarnation c).id

def rawPpid (c : Nat) : Int := if c = 0 then F.tracer else F.pid (F.parent c)

/-- The id of the process that forked the task. -/
def ppidOf (c : Nat) : Int := if c = 0 then F.tracer else F.id (F.parent c)

/-- The kernel's rules: a pid is reused once its holder is gone, a task reports while it lives, and a
fork event comes from the living parent, once. -/
def Possible (w : TaskWorld) : TaskEvent → Prop
  | .spawn c => 0 < c ∧ c ∉ w.spawned ∧ w.Active (F.parent c) ∧ ∀ d < c, F.pid d = F.pid c → d ∈ w.ended
  | .forkEvent t c .. => 0 < c ∧ F.parent c = t ∧ c ∈ w.spawned ∧ c ∉ w.reported ∧ w.Active t
  | .report t status _ => w.Active t ∧ status.forks = false
  | .vanish t => w.Active t

instance (w : TaskWorld) : (e : TaskEvent) → Decidable (F.Possible w e)
  | .spawn c => inferInstanceAs (Decidable (0 < c ∧ c ∉ w.spawned ∧ w.Active (F.parent c) ∧
      ∀ d < c, F.pid d = F.pid c → d ∈ w.ended))
  | .forkEvent t c .. =>
    inferInstanceAs (Decidable (0 < c ∧ F.parent c = t ∧ c ∈ w.spawned ∧ c ∉ w.reported ∧ w.Active t))
  | .report t status _ => inferInstanceAs (Decidable (w.Active t ∧ status.forks = false))
  | .vanish t => inferInstanceAs (Decidable (w.Active t))

/-- The tracer's calls of the session and its new state. -/
def handle (b : PtraceBackend) : TaskEvent → PtraceBackend × List SessionCall
  | .forkEvent t c cwd cmdline view =>
    ((b.handleReport view (F.pid t) (.stopped (.fork (F.pid c) cwd cmdline))).backend,
      (b.handleReport view (F.pid t) (.stopped (.fork (F.pid c) cwd cmdline))).calls)
  | .report t status view =>
    ((b.handleReport view (F.pid t) status).backend, (b.handleReport view (F.pid t) status).calls)
  | .spawn _ | .vanish _ => (b, [])

def start (procsOnly seccompMode : Bool) (view : TraceeView) : Tracing :=
  { backend := (PtraceBackend.start procsOnly seccompMode F.tracer (F.pid 0) view).backend
    calls := (PtraceBackend.start procsOnly seccompMode F.tracer (F.pid 0) view).calls }

def step (s : Tracing) (e : TaskEvent) : Tracing :=
  { world := s.world.step e, backend := (F.handle s.backend e).1, calls := s.calls ++ (F.handle s.backend e).2 }

def run (s : Tracing) (es : List TaskEvent) : Tracing := Runs.run F.step s es

section
variable {F}

@[simp] theorem run_nil (s : Tracing) : F.run s [] = s := rfl

@[simp] theorem run_cons (s : Tracing) (e : TaskEvent) (es : List TaskEvent) :
    F.run s (e :: es) = F.run (F.step s e) es := rfl

theorem run_append (s : Tracing) (es fs : List TaskEvent) : F.run s (es ++ fs) = F.run (F.run s es) fs :=
  List.foldl_append

end

/-! ### Pids and their holders -/

theorem rank_lt {c d : Nat} (h : c < d) (hpid : F.pid c = F.pid d) : F.rank c < F.rank d := by
  apply Finset.card_lt_card
  refine Finset.ssubset_iff_of_subset (fun e he => ?_) |>.mpr ⟨c, ?_, ?_⟩
  · rw [Finset.mem_filter, Finset.mem_range] at he ⊢
    exact ⟨he.1.trans h, he.2.trans hpid⟩
  · rw [Finset.mem_filter, Finset.mem_range]
    exact ⟨h, hpid⟩
  · simp

theorem incarnation_injective {c d : Nat} (h : F.incarnation c = F.incarnation d) : c = d := by
  obtain ⟨hpid, hrank⟩ := Incarnation.mk.inj h
  rcases Nat.lt_trichotomy c d with hlt | heq | hgt
  · exact absurd hrank (F.rank_lt hlt hpid).ne
  · exact heq
  · exact absurd hrank (F.rank_lt hgt hpid.symm).ne'

/-- What holds of the tasks in every possible run. -/
structure Sane (w : TaskWorld) : Prop where
  root : 0 ∈ w.spawned ∧ 0 ∈ w.reported
  ended : w.ended ⊆ w.spawned
  reported : w.reported ⊆ w.spawned
  exited : w.exited ⊆ w.ended
  holders : ∀ c ∈ w.spawned, ∀ d < c, F.pid d = F.pid c → d ∈ w.ended

variable {F}

theorem reporter_active {w : TaskWorld} {e : TaskEvent} (hp : F.Possible w e) {t : Nat} (ht : e.reporter = some t) :
    w.Active t := by
  cases e with
  | report u status view =>
    obtain rfl := Option.some.inj ht
    exact hp.1
  | forkEvent u c cwd cmdline view =>
    obtain rfl := Option.some.inj ht
    exact hp.2.2.2.2
  | _ => cases ht

/-- A pid has one living holder. -/
theorem Sane.unique {w : TaskWorld} (h : F.Sane w) {c d : Nat} (hc : w.Active c) (hd : w.Active d)
    (hpid : F.pid c = F.pid d) : c = d := by
  rcases Nat.lt_trichotomy c d with hlt | heq | hgt
  · exact absurd (h.holders d hd.1 c hlt hpid) hc.2
  · exact heq
  · exact absurd (h.holders c hc.1 d hgt hpid.symm) hd.2

/-- The living holder of a pid is the last one. -/
theorem Sane.last {w : TaskWorld} (h : F.Sane w) {c d : Nat} (hc : w.Active c) (hd : d ∈ w.spawned)
    (hpid : F.pid d = F.pid c) : d ≤ c := by
  by_contra hlt
  exact hc.2 (h.holders d hd c (by omega) hpid.symm)

theorem sane_start : F.Sane {} :=
  ⟨⟨by simp, by simp⟩, by simp, by simp, by simp, fun c hc d hd => by
    obtain rfl : c = 0 := by simpa using hc
    omega⟩

theorem Sane.step {w : TaskWorld} (h : F.Sane w) {e : TaskEvent} (hp : F.Possible w e) : F.Sane (w.step e) := by
  obtain ⟨hroot, hended, hreported, hexited, hholders⟩ := h
  cases e with
  | spawn c =>
    refine ⟨⟨Finset.mem_insert_of_mem hroot.1, hroot.2⟩, hended.trans (Finset.subset_insert _ _),
      hreported.trans (Finset.subset_insert _ _), hexited, fun a ha d hd hpid => ?_⟩
    rcases Finset.mem_insert.mp ha with rfl | ha
    · exact hp.2.2.2 d hd hpid
    · exact hholders a ha d hd hpid
  | forkEvent t c =>
    refine ⟨⟨hroot.1, Finset.mem_insert_of_mem hroot.2⟩, hended, ?_, hexited, hholders⟩
    exact Finset.insert_subset hp.2.2.1 hreported
  | report t status =>
    simp only [TaskWorld.step]
    split
    · exact ⟨hroot, Finset.insert_subset hp.1.1 hended, hreported, Finset.insert_subset_insert t hexited,
        fun a ha d hd hpid => Finset.mem_insert_of_mem (hholders a ha d hd hpid)⟩
    · exact ⟨hroot, hended, hreported, hexited, hholders⟩
  | vanish t =>
    exact ⟨hroot, Finset.insert_subset hp.1 hended, hreported, hexited.trans (Finset.subset_insert _ _),
      fun a ha d hd hpid => Finset.mem_insert_of_mem (hholders a ha d hd hpid)⟩

theorem handle_mode (b : PtraceBackend) (e : TaskEvent) :
    (F.handle b e).1.procsOnly = b.procsOnly ∧ (F.handle b e).1.seccompMode = b.seccompMode := by
  cases e with
  | forkEvent t c cwd cmdline view => exact b.handleReport_mode view (F.pid t) _
  | report t status view => exact b.handleReport_mode view (F.pid t) status
  | _ => exact ⟨rfl, rfl⟩

/-- The child of a fork event has another pid than the parent. -/
theorem Sane.pid_ne {w : TaskWorld} (h : F.Sane w) {t c : Nat} {cwd cmdline : Str} {view : TraceeView}
    (hp : F.Possible w (.forkEvent t c cwd cmdline view)) : F.pid c ≠ F.pid t := fun hpid =>
  hp.2.2.2.2.2 (h.holders c hp.2.2.1 t (hp.2.1 ▸ F.parent_lt c hp.1) hpid.symm)

/-- An event leaves the entries of the living tasks that it is not about. -/
theorem Sane.handle_other {w : TaskWorld} (h : F.Sane w) {e : TaskEvent} (hp : F.Possible w e)
    {u : Nat} (hu : w.Active u)
    (hreporter : e.reporter ≠ some u) (hforked : ∀ c ∈ e.forked, u ≠ c ∧ (F.pid u = F.pid c → u ≤ c))
    (b : PtraceBackend) :
    (F.handle b e).1.procs (F.pid u) = b.procs (F.pid u) := by
  cases e with
  | spawn c => rfl
  | vanish t => rfl
  | forkEvent t c cwd cmdline view =>
    obtain ⟨huc, hlate⟩ := hforked c rfl
    obtain ⟨-, -, -, hothers⟩ := b.handleReport_fork view (F.pid t) (F.pid_range c).1.ne' (h.pid_ne hp) cwd cmdline
    apply hothers
    · intro hpid
      exact hreporter (congrArg some (h.unique hu hp.2.2.2.2 hpid).symm)
    · intro hpid
      have hlt : u < c := (hlate hpid).lt_of_ne huc
      exact hu.2 (h.holders c hp.2.2.1 u hlt hpid)
  | report t status view =>
    have hpid : F.pid u ≠ F.pid t := fun hpid => hreporter (congrArg some (h.unique hu hp.1 hpid).symm)
    cases hends : status.ends with
    | true =>
      obtain ⟨x, -, -, hprocs⟩ := b.handleReport_ends view (F.pid t) hends
      rw [handle, hprocs, Function.update_of_ne hpid]
    | false =>
      cases status with
      | exited code => cases hends
      | signaled sig => cases hends
      | stopped stop =>
        obtain ⟨ps, -, hprocs⟩ := b.handleReport_own view (F.pid t) hp.2
        rw [handle, hprocs, Function.update_of_ne hpid]

/-- A shell with two children; the pid of the second goes to a task that the first one forks. -/
def reusedChild : Family where
  pid c := [10, 20, 30, 30].getD c 40
  parent c := if c = 3 then 1 else 0
  tracer := 7
  parent_lt c hc := by
    split <;> omega
  pid_range c := by
    match c with
    | 0 | 1 | 2 | 3 => decide
    | c + 4 => exact ⟨by simp, by simp⟩
  tracer_range := by decide
  pid_ne_tracer c := by
    match c with
    | 0 | 1 | 2 | 3 => decide
    | c + 4 => simp

end Family
end Bdtrace
