import Bdtrace.Tracer.SignalStops

/-! The initial SIGSTOP of a child: swallowed by the tracer, for good. -/
namespace Bdtrace

namespace PtraceBackend
variable (b : PtraceBackend) (view : TraceeView) (pid : Int)

/-- The `traced` flag that a report of the pid meets. -/
def traced : Bool := (b.entry pid).traced

/-- A fork event takes an entry with a parent for left over. -/
def leftOver : Bool := (b.entry pid).ppid != 0

variable {b pid} in
private theorem traced_of_entry {ps : ProcessState} (h : b.procs pid = some ps) : b.traced pid = ps.traced := by
  rw [traced, entry, h, Option.getD_some]

private theorem forkedEntry_traced (child : Int) (cwd cmdline : Str) :
    (forkedEntry (b.procs child) pid child cwd cmdline).traced = (b.traced child && !b.leftOver child) := by
  simp only [forkedEntry, traced, leftOver, entry]
  cases b.procs child with
  | none => rfl
  | some ps =>
    by_cases hppid : ps.ppid = 0
    · simp [hppid]
    · simp [hppid, ProcessState.registered]

end PtraceBackend

namespace Family
variable (F : Family)

/-- Every living child whose initial SIGSTOP was reported has its flag set. -/
def FlagsSet (r : SignalRun) : Prop :=
  ∀ t ∈ r.attached, t ≠ 0 → r.tracing.world.Active t → r.tracing.backend.traced (F.pid t) = true

/-- An initial SIGSTOP is resumed without a signal, and the flags are set. -/
def Swallowed (r : SignalRun) (e : SignalEvent) : Prop :=
  (∀ t ∈ e.attaching, F.restartSignal r.tracing.backend e.task = some 0) ∧ F.FlagsSet (F.signalStep r e)

/-- No initial SIGSTOP meets an entry with the flag set, and no fork event finds the entry of a living child whose
initial SIGSTOP was reported and takes it for left over. -/
def EntriesFresh (r : SignalRun) (e : SignalEvent) : Prop :=
  (∀ t ∈ e.attaching, r.tracing.backend.traced (F.pid t) = false) ∧
  ∀ c ∈ e.task.forked, r.tracing.backend.leftOver (F.pid c) = true →
    ∀ t ∈ r.attached, t ≠ 0 → r.tracing.world.Active t → F.pid t ≠ F.pid c

instance (r : SignalRun) : Decidable (F.FlagsSet r) := inferInstanceAs (Decidable (∀ t ∈ r.attached, _))

instance (r : SignalRun) (e : SignalEvent) : Decidable (F.Swallowed r e) := inferInstanceAs (Decidable (_ ∧ _))

instance (r : SignalRun) (e : SignalEvent) : Decidable (F.EntriesFresh r e) := inferInstanceAs (Decidable (_ ∧ _))

variable {F}

/-! ### The flag of one pid -/

section
variable {r : SignalRun} {e : SignalEvent} (h : F.Sane r.tracing.world)
    (hp : F.Possible r.tracing.world e.task) {u : Nat}
include h hp

private theorem traced_reporter (hu : e.task.reporter = some u) (hactive : (F.signalStep r e).tracing.world.Active u) :
    (F.signalStep r e).tracing.backend.traced (F.pid u) =
      (r.tracing.backend.traced (F.pid u) || decide (e.task.sigstopped = some u)) := by
  obtain ⟨ps, hps, htraced, -⟩ := entry_reporter h hp hu hactive
  rw [PtraceBackend.traced_of_entry hps, htraced, PtraceBackend.traced]

private theorem traced_forked {c : Nat} (hc : e.task.forked = some c) :
    (F.signalStep r e).tracing.backend.traced (F.pid c) =
    (r.tracing.backend.traced (F.pid c) && !r.tracing.backend.leftOver (F.pid c)) := by
  cases he : e.task with
  | forkEvent t d cwd cmdline view =>
    obtain rfl : d = c := by simpa [he, TaskEvent.forked] using hc
    obtain ⟨cwd', cmdline', hprocs⟩ := entry_forked h hp he
    rw [PtraceBackend.traced_of_entry hprocs, PtraceBackend.forkedEntry_traced]
  | _ => simp [he, TaskEvent.forked] at hc

private theorem traced_other (hu : r.tracing.world.Active u) (hreporter : e.task.reporter ≠ some u)
    (hforked : ∀ c ∈ e.task.forked, F.pid u ≠ F.pid c) :
    (F.signalStep r e).tracing.backend.traced (F.pid u) = r.tracing.backend.traced (F.pid u) := by
  have hprocs : (F.signalStep r e).tracing.backend.procs (F.pid u) = r.tracing.backend.procs (F.pid u) :=
    h.handle_other hp hu hreporter (fun c hc => ⟨fun huc => hforked c hc (congrArg F.pid huc), fun hpid =>
      absurd hpid (hforked c hc)⟩) r.tracing.backend
  simp only [PtraceBackend.traced, PtraceBackend.entry, hprocs]

end

/-! ### Runs -/

variable (F) in
structure AttachedFlags (r : SignalRun) : Prop where
  sane : F.Sane r.tracing.world
  attached : r.attached ⊆ r.tracing.world.spawned
  flags : F.FlagsSet r

namespace AttachedFlags
variable {r : SignalRun} (h : F.AttachedFlags r)
include h

private theorem attached_step {e : SignalEvent} (hp : F.SignalPossible r e) :
    (F.signalStep r e).attached ⊆ (F.signalStep r e).tracing.world.spawned := by
  intro t ht
  apply TaskWorld.spawned_subset
  rcases Finset.mem_union.mp ht with ht | ht
  · exact h.attached ht
  · have hreports := sigstopped_reports (attaching_sigstopped (Option.mem_toFinset.mp ht))
    exact (reporter_active hp.1 hreports).1

/-- The flags stay set but for the fork events that replace an entry. -/
private theorem flags_iff {e : SignalEvent} (hp : F.SignalPossible r e) : F.FlagsSet (F.signalStep r e) ↔
    ∀ c ∈ e.task.forked, r.tracing.backend.leftOver (F.pid c) = true →
      ∀ t ∈ r.attached, t ≠ 0 → r.tracing.world.Active t → F.pid t ≠ F.pid c := by
  constructor
  · intro hflags c hc hleft t ht hroot hactive hpid
    have hactive' : (F.signalStep r e).tracing.world.Active t := by
      cases he : e.task with
      | forkEvent u d cwd cmdline view =>
        simp only [signalStep_world, he, TaskWorld.step]
        exact hactive
      | _ => simp [he, TaskEvent.forked] at hc
    have hset := hflags t (Finset.mem_union_left _ ht) hroot hactive'
    rw [hpid, traced_forked h.sane hp.1 hc, hleft] at hset
    simp at hset
  · intro hkept t ht hroot hactive
    by_cases hreporter : e.task.reporter = some t
    · rw [traced_reporter h.sane hp.1 hreporter hactive, Bool.or_eq_true, decide_eq_true_eq]
      rcases Finset.mem_union.mp ht with ht | ht
      · exact .inl (h.flags t ht hroot (reporter_active hp.1 hreporter))
      · exact .inr (attaching_sigstopped (Option.mem_toFinset.mp ht))
    · have hold : t ∈ r.attached := (Finset.mem_union.mp ht).resolve_right fun hm =>
        hreporter (sigstopped_reports (attaching_sigstopped (Option.mem_toFinset.mp hm)))
      have hlive : r.tracing.world.Active t := ⟨h.attached hold, fun hm => hactive.2 (TaskWorld.ended_subset _ _ hm)⟩
      have hset := h.flags t hold hroot hlive
      by_cases hforked : ∃ c ∈ e.task.forked, F.pid t = F.pid c
      · obtain ⟨c, hc, hpid⟩ := hforked
        have hparentless : r.tracing.backend.leftOver (F.pid c) = false := Bool.eq_false_iff.mpr fun hleft =>
          hkept c hc hleft t hold hroot hlive hpid
        rw [hpid, traced_forked h.sane hp.1 hc, ← hpid, hset, hpid, hparentless]
        rfl
      · rw [traced_other h.sane hp.1 hlive hreporter fun c hc hpid => hforked ⟨c, hc, hpid⟩]
        exact hset

private theorem swallowed_iff {e : SignalEvent} (hp : F.SignalPossible r e) : F.Swallowed r e ↔ F.EntriesFresh r e := by
  refine and_congr ?_ (h.flags_iff hp)
  cases e with
  | attachStop t view =>
    have hstop : decodeStop (signalStatus 19) {} = .signal sigstop := decodeStop_signalStatus (by omega) {}
    have hrestart : F.restartSignal r.tracing.backend (SignalEvent.attachStop t view).task =
        some (if r.tracing.backend.traced (F.pid t) then sigstop else 0) := by
      simp only [SignalEvent.task, restartSignal, hstop, PtraceBackend.handleReport_signal_restart]
      cases hflag : (r.tracing.backend.entry (F.pid t)).traced <;>
        simp [PtraceBackend.resume, PtraceBackend.traced, hflag]
    rw [hrestart]
    cases hflag : r.tracing.backend.traced (F.pid t) <;> simp [SignalEvent.attaching, hflag, sigstop]
  | _ => exact iff_of_true (fun t ht => by cases ht) fun t ht => by cases ht

theorem step {e : SignalEvent} (hp : F.SignalPossible r e) (hs : F.Swallowed r e) :
    F.AttachedFlags (F.signalStep r e) := ⟨h.sane.step hp.1, h.attached_step hp, hs.2⟩

end AttachedFlags

private theorem attachedFlags_start (procsOnly seccompMode : Bool) (view : TraceeView) :
    F.AttachedFlags (F.startSignals procsOnly seccompMode view) := by
  refine ⟨sane_start, ?_, ?_⟩
  · exact Finset.Subset.refl _
  · intro t ht hroot
    exact absurd (Finset.mem_singleton.mp ht) hroot

/-- The initial SIGSTOPs are swallowed, and the flags that they set kept, in exactly the runs that meet no flag of
an earlier owner of the pid and replace no entry of a child that stopped. -/
theorem initial_stops_swallowed (F : Family) (procsOnly seccompMode : Bool) (view : TraceeView) (es : List SignalEvent)
    (hp : Runs.Along F.signalStep F.SignalPossible (F.startSignals procsOnly seccompMode view) es) :
    Runs.Along F.signalStep F.Swallowed (F.startSignals procsOnly seccompMode view) es ↔
      Runs.Along F.signalStep F.EntriesFresh (F.startSignals procsOnly seccompMode view) es := by
  apply Runs.Along.iff_of_invariant (I := F.AttachedFlags) ?_ ?_ (attachedFlags_start procsOnly seccompMode view) hp
  · intro r e h hpossible hswallowed
    exact h.step hpossible hswallowed
  · intro r e h hpossible
    exact h.swallowed_iff hpossible

/-- The second child vanishes after its initial SIGSTOP, and the third task gets its pid. -/
def reusedPid (events : List SignalEvent) : List SignalEvent :=
  firstChild ++ [.other (.spawn 2), .attachStop 2 {}, .other (.forkEvent 0 2 [] [] {}), .other (.vanish 2),
    .other (.spawn 3)] ++ events

/-- When the fork event comes first, it replaces the entry. -/
theorem initial_stops_forkFirst : Runs.Along reusedChild.signalStep reusedChild.Swallowed
    (reusedChild.startSignals false false {}) (reusedPid [.other (.forkEvent 1 3 [] [] {}), .attachStop 3 {}]) :=
  (initial_stops_swallowed reusedChild false false {} _ (by decide)).mpr (by decide)

/-- When the initial SIGSTOP comes first, it is sent to the child, and the fork event then drops the flag. -/
theorem stale_flag_reinjects :
    let r := Runs.run reusedChild.signalStep (reusedChild.startSignals false false {}) (reusedPid [])
    Runs.Along reusedChild.signalStep reusedChild.SignalPossible (reusedChild.startSignals false false {})
        (reusedPid [.attachStop 3 {}, .other (.forkEvent 1 3 [] [] {})]) ∧
      reusedChild.restartSignal r.tracing.backend (SignalEvent.attachStop 3 {}).task = some 19 ∧
      ¬Runs.Along reusedChild.signalStep reusedChild.Swallowed (reusedChild.startSignals false false {})
        (reusedPid [.attachStop 3 {}, .other (.forkEvent 1 3 [] [] {})]) := by
  decide

end Family
end Bdtrace
