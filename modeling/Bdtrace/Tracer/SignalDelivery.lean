import Bdtrace.Tracer.SignalStops

/-! Signal transparency: the flag that the tracer keeps for the initial SIGSTOP of a task, and with which signal each
signal-delivery stop is resumed. -/
namespace Bdtrace
namespace Family
variable (F : Family)

/-- The tracer can tell which SIGSTOP it has before it: the flag of the task is its own, no group stop came before its
initial SIGSTOP, and the root stopped with SIGSTOP before. -/
def SigstopTold (r : SignalRun) (e : SignalEvent) : Prop :=
  (∀ t ∈ e.task.sigstopped, t ∉ r.misflagged ∪ F.misflags r e.task) ∧ (∀ t ∈ e.attaching, t ∉ r.stopped) ∧
    (e.stopsRoot = true → 0 ∈ r.stopped)

/-- A signal-delivery stop is resumed with the signal that is due. -/
def Transparent (r : SignalRun) (e : SignalEvent) : Prop :=
  ∀ n ∈ e.due, F.restartSignal r.tracing.backend e.task = some n

/-- As `Transparent`, except that SIGTRAP, taken for an unmarked syscall stop, is dropped, and for the SIGSTOPs that the
tracer cannot tell apart. -/
def TransparentButTrap (r : SignalRun) (e : SignalEvent) : Prop :=
  e.task.sigstopped = none ∨ F.SigstopTold r e →
    ∀ n ∈ e.due, F.restartSignal r.tracing.backend e.task = some (if n = 5 then 0 else n)

instance (r : SignalRun) (e : SignalEvent) : Decidable (F.SigstopTold r e) := inferInstanceAs (Decidable (_ ∧ _ ∧ _))

/-- The tasks whose signal, other than SIGTRAP and the SIGSTOPs that the tracer cannot tell apart, was not delivered,
stop by stop. -/
def swallowed : SignalRun → List SignalEvent → List Nat
  | _, [] => []
  | r, e :: es =>
    (match e.delivery with
      | some (t, sig) =>
        if sig ≠ 5 ∧ (e.task.sigstopped = none ∨ F.SigstopTold r e) ∧
          F.restartSignal r.tracing.backend e.task = some 0 then
          [t]
        else []
      | none => []) ++ swallowed (F.signalStep r e) es

instance (r : SignalRun) (e : SignalEvent) : Decidable (F.Transparent r e) :=
  inferInstanceAs (Decidable (∀ n ∈ e.due, F.restartSignal r.tracing.backend e.task = some n))

/-- The tracer's flag says for each task whether it stopped with SIGSTOP. -/
structure FlagsKept (r : SignalRun) : Prop where
  sane : F.Sane r.tracing.world
  seen : r.seen ⊆ r.tracing.world.spawned
  stopped : r.stopped ⊆ r.seen
  attached : ∀ t ∈ r.attached, t ≠ 0 → t ∈ r.stopped
  flags : ∀ t, r.tracing.world.Active t → t ∈ r.tracing.world.reported ∨ t ∈ r.seen → t ∉ r.misflagged →
    ∃ ps, r.tracing.backend.procs (F.pid t) = some ps ∧ ps.traced = decide (t ∈ r.stopped) ∧
      (t ∉ r.tracing.world.reported → ps.ppid = 0)

variable {F}

/-! ### The flag of a task that has its own entry -/

section
variable {r : SignalRun} {e : TaskEvent}

private theorem first_flag {t : Nat} (hown : t ∉ F.misflags r e) (ht : e.reporter = some t)
    (hnew : t ∉ r.tracing.world.reported) (hseen : t ∉ r.seen) {ps : ProcessState}
    (hps : r.tracing.backend.procs (F.pid t) = some ps) : ps.traced = false ∧ ps.ppid = 0 := by
  by_contra hno
  apply hown
  simp only [misflags, Finset.mem_union, Finset.mem_filter, Option.mem_toFinset, Option.mem_def]
  refine .inl (.inl ⟨ht, hnew, hseen, ps, hps, ?_⟩)
  rcases not_and_or.mp hno with hflag | hppid
  · exact .inl (by simpa using hflag)
  · exact .inr hppid

private theorem forked_flag {c : Nat} (hown : c ∉ F.misflags r e) (hc : e.forked = some c) (hseen : c ∉ r.seen)
    {ps : ProcessState} (hps : r.tracing.backend.procs (F.pid c) = some ps) : ps.traced = false ∨ ps.ppid ≠ 0 := by
  by_contra hno
  obtain ⟨hflag, hppid⟩ := not_or.mp hno
  apply hown
  simp only [misflags, Finset.mem_union, Finset.mem_filter, Option.mem_toFinset, Option.mem_def]
  exact .inl (.inr ⟨hc, hseen, ps, hps, by simpa using hflag, not_not.mp hppid⟩)

private theorem later_flag {c d : Nat} (hown : d ∉ F.misflags r e) (hd : d ∈ r.tracing.world.reported ∨ d ∈ r.seen)
    (hc : e.forked = some c) (hpid : F.pid d = F.pid c) : d ≤ c := by
  by_contra hlt
  apply hown
  simp only [misflags, Finset.mem_union, Finset.mem_filter]
  exact .inr ⟨hd.symm, c, hc, hpid, not_le.mp hlt⟩

end

namespace FlagsKept
variable {r : SignalRun} (h : F.FlagsKept r)
include h

/-- The entry that a task's report meets. -/
theorem entry {e : SignalEvent} {t : Nat} (ht : e.task.reporter = some t) (hactive : r.tracing.world.Active t)
    (hown : t ∉ r.misflagged ∪ F.misflags r e.task) :
    (r.tracing.backend.entry (F.pid t)).traced = decide (t ∈ r.stopped) ∧
      (t ∉ r.tracing.world.reported → (r.tracing.backend.entry (F.pid t)).ppid = 0) := by
  obtain ⟨hown, hmisflag⟩ := not_or.mp (mt Finset.mem_union.mpr hown)
  by_cases hknown : t ∈ r.tracing.world.reported ∨ t ∈ r.seen
  · obtain ⟨ps, hps, htraced, hppid⟩ := h.flags t hactive hknown hown
    simp only [PtraceBackend.entry, hps, Option.getD_some]
    exact ⟨htraced, hppid⟩
  · obtain ⟨hreported, hseen⟩ := not_or.mp hknown
    have hstopped : decide (t ∈ r.stopped) = false := decide_eq_false fun hm => hseen (h.stopped hm)
    rw [hstopped]
    cases hps : r.tracing.backend.procs (F.pid t) with
    | none => simp [PtraceBackend.entry, hps]
    | some ps =>
      obtain ⟨htraced, hppid⟩ := first_flag hmisflag ht hreported hseen hps
      simp [PtraceBackend.entry, hps, htraced, hppid]

/-- The child of a fork event. -/
private theorem flag_child {e : SignalEvent} (hp : F.Possible r.tracing.world e.task) {t c : Nat} {cwd cmdline : Str}
    {view : TraceeView} (he : e.task = .forkEvent t c cwd cmdline view) (hactive : r.tracing.world.Active c)
    (hown : c ∉ r.misflagged ∪ F.misflags r e.task) :
    ∃ ps, (F.signalStep r e).tracing.backend.procs (F.pid c) = some ps ∧ ps.traced = decide (c ∈ r.stopped) := by
  obtain ⟨hown, hmisflag⟩ := not_or.mp (mt Finset.mem_union.mpr hown)
  obtain ⟨cwd', cmdline', hprocs⟩ := entry_forked h.sane hp he
  rw [he] at hp
  refine ⟨_, hprocs, ?_⟩
  by_cases hseen : c ∈ r.seen
  · obtain ⟨ps, hps, hflag, hzero⟩ := h.flags c hactive (.inr hseen) hown
    simp only [PtraceBackend.forkedEntry, hps]
    rw [if_neg (not_not.mpr (hzero hp.2.2.2.1))]
    exact hflag
  · rw [decide_eq_false fun hm => hseen (h.stopped hm)]
    cases hps : r.tracing.backend.procs (F.pid c) with
    | none => rfl
    | some ps =>
      simp only [PtraceBackend.forkedEntry]
      split
      · rfl
      · exact (forked_flag hmisflag (by rw [he]; rfl) hseen hps).resolve_right (by assumption)

private theorem flag_other {e : SignalEvent} (hp : F.Possible r.tracing.world e.task) {u : Nat}
    (hactive : r.tracing.world.Active u) (hreporter : e.task.reporter ≠ some u) (hforked : e.task.forked ≠ some u)
    (hknown : u ∈ (F.signalStep r e).tracing.world.reported ∨ u ∈ (F.signalStep r e).seen)
    (hown : u ∉ r.misflagged ∪ F.misflags r e.task) :
    ∃ ps, (F.signalStep r e).tracing.backend.procs (F.pid u) = some ps ∧
      ps.traced = decide (u ∈ (F.signalStep r e).stopped) ∧ (u ∉ r.tracing.world.reported → ps.ppid = 0) := by
  obtain ⟨hown, hmisflag⟩ := not_or.mp (mt Finset.mem_union.mpr hown)
  have hold : u ∈ r.tracing.world.reported ∨ u ∈ r.seen := by
    refine hknown.imp (fun hm => ?_) fun hm => ?_
    · simp only [signalStep_world, TaskWorld.reported_step] at hm
      exact (Finset.mem_union.mp hm).resolve_right fun hm => hforked (Option.mem_toFinset.mp hm)
    · exact (Finset.mem_union.mp hm).resolve_right fun hm => hreporter (Option.mem_toFinset.mp hm)
  have hstopped : u ∈ (F.signalStep r e).stopped ↔ u ∈ r.stopped := by
    refine ⟨fun hm => ?_, fun hm => Finset.mem_union_left _ hm⟩
    exact (Finset.mem_union.mp hm).resolve_right fun hm => hreporter (sigstopped_reports (Option.mem_toFinset.mp hm))
  have hprocs := h.sane.handle_other hp hactive hreporter (fun c hc => ⟨fun huc => hforked (huc ▸ hc), fun hpid =>
    later_flag hmisflag hold hc hpid⟩) r.tracing.backend
  obtain ⟨pu, hpu, hflag, hzero⟩ := h.flags u hactive hold hown
  refine ⟨pu, hprocs.trans hpu, ?_, hzero⟩
  rw [hflag]
  exact decide_eq_decide.mpr hstopped.symm

theorem step {e : SignalEvent} (hp : F.SignalPossible r e) : F.FlagsKept (F.signalStep r e) := by
  obtain ⟨hp, -⟩ := hp
  refine ⟨h.sane.step hp, ?_, ?_, ?_, ?_⟩
  · intro t ht
    apply TaskWorld.spawned_subset
    rcases Finset.mem_union.mp ht with ht | ht
    · exact h.seen ht
    · exact (Family.reporter_active hp (Option.mem_toFinset.mp ht)).1
  · intro t ht
    rcases Finset.mem_union.mp ht with ht | ht
    · exact Finset.mem_union_left _ (h.stopped ht)
    · exact Finset.mem_union_right _ (Option.mem_toFinset.mpr (sigstopped_reports (Option.mem_toFinset.mp ht)))
  · intro t ht hroot
    rcases Finset.mem_union.mp ht with ht | ht
    · exact Finset.mem_union_left _ (h.attached t ht hroot)
    · exact Finset.mem_union_right _ (Option.mem_toFinset.mpr (attaching_sigstopped (Option.mem_toFinset.mp ht)))
  · intro u hactive hknown hown
    have hlive : u ∉ r.tracing.world.ended := fun hm => hactive.2 (TaskWorld.ended_subset _ _ hm)
    have hreported : u ∉ (F.signalStep r e).tracing.world.reported → u ∉ r.tracing.world.reported := fun hm hr => hm (by
      simp only [signalStep_world, TaskWorld.reported_step]
      exact Finset.mem_union_left _ hr)
    by_cases hforked : e.task.forked = some u
    · cases he : e.task with
      | forkEvent t c cwd cmdline view =>
        obtain rfl : c = u := by simpa [he, TaskEvent.forked] using hforked
        have hp' := hp
        rw [he] at hp'
        obtain ⟨ps, hps, hflag⟩ := h.flag_child hp he ⟨hp'.2.2.1, hlive⟩ hown
        refine ⟨ps, hps, ?_, fun hm => absurd ?_ hm⟩
        · simpa [signalStep, he, TaskEvent.sigstopped] using hflag
        · simp [he, TaskWorld.step]
      | _ => simp [he, TaskEvent.forked] at hforked
    by_cases hreporter : e.task.reporter = some u
    · obtain ⟨ps, hps, hflag, hppid⟩ := entry_reporter h.sane hp hreporter hactive
      obtain ⟨hold, hzero⟩ := h.entry hreporter (Family.reporter_active hp hreporter) hown
      refine ⟨ps, hps, ?_, fun hm => hppid.trans (hzero (hreported hm))⟩
      rw [hflag, hold, ← Bool.decide_or]
      apply decide_eq_decide.mpr
      simp [signalStep]
    · have hold : r.tracing.world.Active u := by
        refine ⟨hknown.elim (fun hm => ?_) fun hm => ?_, hlive⟩
        · simp only [signalStep_world, TaskWorld.reported_step] at hm
          exact h.sane.reported ((Finset.mem_union.mp hm).resolve_right fun hm => hforked (Option.mem_toFinset.mp hm))
        · exact h.seen ((Finset.mem_union.mp hm).resolve_right fun hm => hreporter (Option.mem_toFinset.mp hm))
      obtain ⟨ps, hps, hflag, hzero⟩ := h.flag_other hp hold hreporter hforked hknown hown
      exact ⟨ps, hps, hflag, fun hm => hzero (hreported hm)⟩

/-- The initial SIGSTOP of a task is swallowed. -/
private theorem transparent_attach {t : Nat} {view : TraceeView} (hp : F.SignalPossible r (.attachStop t view))
    (htold : F.SigstopTold r (.attachStop t view)) :
    F.restartSignal r.tracing.backend (SignalEvent.attachStop t view).task = some 0 := by
  have hstop : decodeStop (signalStatus 19) {} = .signal sigstop := decodeStop_signalStatus (by omega) {}
  obtain ⟨hflag, -⟩ := h.entry rfl hp.1.1 (htold.1 t rfl)
  have hfirst : t ∉ r.stopped := htold.2.1 t rfl
  simp only [SignalEvent.task, restartSignal, hstop, PtraceBackend.handleReport_signal_restart, hflag]
  simp [hfirst, PtraceBackend.resume]

/-- A genuine SIGSTOP is delivered. -/
private theorem transparent_sigstop {t : Nat} {view : TraceeView} (hp : F.SignalPossible r (.signalStop t 19 view))
    (htold : F.SigstopTold r (.signalStop t 19 view)) :
    F.restartSignal r.tracing.backend (SignalEvent.signalStop t 19 view).task = some 19 := by
  have hstop : decodeStop (signalStatus 19) {} = .signal sigstop := decodeStop_signalStatus (by omega) {}
  obtain ⟨hflag, -⟩ := h.entry rfl hp.1.1 (htold.1 t rfl)
  have hkept : t ∈ r.stopped := by
    by_cases hroot : t = 0
    · subst hroot
      exact htold.2.2 rfl
    · exact h.attached t (hp.2.2.2 rfl) hroot
  simp only [SignalEvent.task, restartSignal, hstop, PtraceBackend.handleReport_signal_restart, hflag]
  simp [hkept, PtraceBackend.resume, sigstop]

omit h in
/-- Every other signal is delivered in every state of the tracer, SIGTRAP apart. -/
private theorem transparent_signal {t sig : Nat} {view : TraceeView} (hle : sig ≤ 64) (hsig : sig ≠ 19) :
    F.restartSignal r.tracing.backend (SignalEvent.signalStop t sig view).task =
      some (if (sig : Int) = 5 then 0 else (sig : Int)) := by
  by_cases htrap : sig = 5
  · subst htrap
    rfl
  · have hstop : decodeStop (signalStatus sig) {} = .signal sig := by
      rw [decodeStop_signalStatus hle, if_neg htrap]
    have hother : (sig : Int) ≠ sigstop := by
      simp only [sigstop]
      omega
    simp only [SignalEvent.task, restartSignal, hstop, PtraceBackend.handleReport_signal_restart, hother,
      false_and, if_false]
    rw [if_neg (by omega)]
    rfl

private theorem transparent {e : SignalEvent} (hp : F.SignalPossible r e) : F.TransparentButTrap r e := by
  intro htold n hn
  cases e with
  | attachStop t view =>
    obtain rfl := Option.some.inj hn
    exact h.transparent_attach hp (htold.resolve_left fun hnone => by cases hnone)
  | signalStop t sig view =>
    obtain rfl := Option.some.inj hn
    by_cases hsig : sig = 19
    · subst hsig
      exact h.transparent_sigstop hp (htold.resolve_left fun hnone => by cases hnone)
    · exact transparent_signal hp.2.2.1 hsig
  | groupStop => cases hn
  | other => cases hn

private theorem swallowed_attached {es : List SignalEvent} (hp : Runs.Along F.signalStep F.SignalPossible r es) :
    (F.swallowed r es).Nodup ∧ ∀ t ∈ F.swallowed r es, t ∉ r.attached := by
  induction es generalizing r with
  | nil => simp [swallowed]
  | cons e es ih =>
    obtain ⟨hpossible, hrest⟩ := hp
    obtain ⟨hnodup, hnew⟩ := ih (h.step hpossible) hrest
    have hold : ∀ t ∈ F.swallowed (F.signalStep r e) es, t ∉ r.attached := fun t ht hm =>
      hnew t ht (Finset.mem_union_left _ hm)
    cases e with
    | attachStop t view =>
      have hfresh : t ∉ F.swallowed (F.signalStep r (.attachStop t view)) es := fun ht =>
        hnew t ht (Finset.mem_union_right _ (Option.mem_toFinset.mpr rfl))
      simp only [swallowed, SignalEvent.delivery]
      split
      · refine ⟨List.nodup_cons.mpr ⟨hfresh, hnodup⟩, fun u hm => ?_⟩
        rcases List.mem_cons.mp hm with rfl | hm
        · exact hpossible.2
        · exact hold u hm
      · exact ⟨hnodup, hold⟩
    | signalStop t sig view =>
      have hpos := hpossible.2.1
      have hdelivered : ¬(sig ≠ 5 ∧ ((SignalEvent.signalStop t sig view).task.sigstopped = none ∨
          F.SigstopTold r (.signalStop t sig view)) ∧
          F.restartSignal r.tracing.backend (SignalEvent.signalStop t sig view).task = some 0) := by
        rintro ⟨htrap, htold, hrestart⟩
        rw [h.transparent hpossible htold sig rfl, if_neg (by omega)] at hrestart
        have := Option.some.inj hrestart
        omega
      simp only [swallowed, SignalEvent.delivery, hdelivered, if_false, List.nil_append]
      exact ⟨hnodup, hold⟩
    | groupStop => exact ⟨hnodup, hold⟩
    | other => exact ⟨hnodup, hold⟩

end FlagsKept

private theorem flagsKept_start (procsOnly seccompMode : Bool) (view : TraceeView) :
    F.FlagsKept (F.startSignals procsOnly seccompMode view) := by
  refine ⟨sane_start, by simp [startSignals], by simp [startSignals], ?_, ?_⟩
  · intro t ht hroot
    exact absurd (by simpa [startSignals] using ht) hroot
  · intro t hactive hknown _
    obtain rfl : t = 0 := by simpa [startSignals, start] using hactive.1
    exact ⟨_, PtraceBackend.track_self _ _ _, rfl, fun hm => absurd (Finset.mem_singleton_self 0) hm⟩

def misdelivered : List (List SignalEvent) :=
  [firstChild ++ [.signalStop 1 5 {}],
    [.signalStop 0 19 {}],
    -- the entry of task 2 is left when task 3 stops, or is forked
    firstChild ++ [.other (.spawn 2), .attachStop 2 {}, .other (.forkEvent 0 2 [] [] {}), .other (.vanish 2),
      .other (.spawn 3), .attachStop 3 {}],
    firstChild ++ [.other (.spawn 2), .attachStop 2 {}, .other (.vanish 2), .other (.spawn 3),
      .other (.forkEvent 1 3 [] [] {}), .attachStop 3 {}],
    -- the fork event of task 2 comes after that of task 3
    firstChild ++ [.other (.spawn 2), .attachStop 2 {}, .other (.report 2 (.exited 0) {}), .other (.spawn 3),
      .attachStop 3 {}, .other (.forkEvent 1 3 [] [] {}), .other (.forkEvent 0 2 [] [] {}), .signalStop 3 19 {}],
    [.other (.spawn 1), .groupStop 1 19 {}, .attachStop 1 {}]]

/-- SIGUSR1 before the initial SIGSTOP of a child, and SIGSTOP after it. -/
def stoppedChild : List SignalEvent :=
  [.other (.spawn 1), .signalStop 1 10 {}, .attachStop 1 {}, .other (.forkEvent 0 1 [] [] {}), .signalStop 1 19 {},
    .groupStop 1 19 {}, .signalStop 0 15 {}]

end Family
end Bdtrace
