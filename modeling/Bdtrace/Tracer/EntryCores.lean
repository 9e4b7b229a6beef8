import Bdtrace.Tracer.ForeignCalls

/-! Tracers whose entries differ only in what was saved of the last call. -/
namespace Bdtrace

/-- Tracers whose entries have the same cores. -/
def SameCores (b b' : PtraceBackend) : Prop :=
  ∀ q, (b.procs q).map ProcessState.core = (b'.procs q).map ProcessState.core

section Cores
variable {b b' : PtraceBackend} {ps ps' : ProcessState} {v v' : TraceeView} {pid : Int}

theorem SameCores.track (h : SameCores b b') (pid : Int) (hcore : ps.core = ps'.core) :
    SameCores (b.track pid ps) (b'.track pid ps') := by
  intro q
  by_cases hq : q = pid
  · subst hq
    rw [PtraceBackend.track_self, PtraceBackend.track_self, Option.map_some, Option.map_some, hcore]
  · rw [PtraceBackend.track_of_ne _ _ _ hq, PtraceBackend.track_of_ne _ _ _ hq]
    exact h q

/-- An entry that only one tracer rewrites. -/
theorem SameCores.track_left (h : SameCores b b') {old : ProcessState} (hold : b.procs pid = some old)
    (hcore : ps.core = old.core) : SameCores (b.track pid ps) b' := by
  intro q
  rw [← h q]
  by_cases hq : q = pid
  · subst hq
    rw [PtraceBackend.track_self, hold, Option.map_some, Option.map_some, hcore]
  · rw [PtraceBackend.track_of_ne _ _ _ hq]

theorem SameCores.entry (h : SameCores b b') (q : Int) : (b.entry q).core = (b'.entry q).core := by
  have hq := h q
  rw [PtraceBackend.entry, PtraceBackend.entry]
  cases hb : b.procs q with
  | none =>
    rw [hb, Option.map_none] at hq
    rw [Option.map_eq_none_iff.mp hq.symm]
  | some ps =>
    rw [hb, Option.map_some] at hq
    obtain ⟨ps', hps', hcore⟩ := Option.map_eq_some_iff.mp hq.symm
    rw [hps']
    exact hcore.symm

theorem handleSyscallStop_quiet (h : Quiet ps) {regs : Regs} (hregs : v.regs = some regs)
    (hneed : regs.rax.toInt = -enosys → regs.needed = false) :
    (handleSyscallStop v pid ps).2 = [] ∧ (handleSyscallStop v pid ps).1.core = ps.core ∧
      Quiet (handleSyscallStop v pid ps).1 := by
  by_cases hphase : ps.scPhase = .exitNext
  · rw [handleSyscallStop_skipped pid hphase h.exitNeeded]
    exact ⟨rfl, rfl, h.exitNeeded, .inr rfl⟩
  · have hready : ps.scPhase = .exitNext → ps.exitNeeded = true := fun hp => absurd hp hphase
    by_cases hrax : regs.rax.toInt = -enosys
    · rw [handleSyscallStop_entry pid hregs hrax hready]
      exact ⟨rfl, rfl, hneed hrax, .inl rfl⟩
    · have hnone : ps.pendingSyscall = -1 := h.pending.resolve_left hphase
      have hrecord := @recordExit_none v pid { ps with scPhase := .entryNext } hnone regs.rax
      rw [handleSyscallStop_exit pid hregs hrax hready, hrecord]
      exact ⟨rfl, rfl, rfl, .inr rfl⟩

/-- The other stops of the task's own entry read its core and not the clock. -/
private theorem handleOwnStop_core (hsame : v.Same v') (hcore : ps.core = ps'.core) {stop : Stop}
    (hother : stop ≠ .syscall ∧ stop ≠ .seccomp) :
    (b.handleOwnStop v pid ps stop).1.1.core = (b'.handleOwnStop v' pid ps' stop).1.1.core ∧
      untimed (b.handleOwnStop v pid ps stop).1.2 = untimed (b'.handleOwnStop v' pid ps' stop).1.2 := by
  cases stop with
  | syscall => exact absurd rfl hother.1
  | seccomp => exact absurd rfl hother.2
  | exec =>
    have hview := handleExecEvent_same pid hsame ps
    have hps := handleExecEvent_core v' pid hcore
    exact ⟨(congrArg ProcessState.core hview.1).trans hps.1, hview.2.trans (congrArg untimed hps.2)⟩
  | exit usage =>
    simp only [ProcessState.core, ProcessState.mk.injEq] at hcore
    refine ⟨?_, rfl⟩
    simp only [PtraceBackend.handleOwnStop, PtraceBackend.handleExitEvent, ProcessState.core, hcore]
  | signal sig =>
    have htraced : ps.traced = ps'.traced := by
      change ps.core.traced = ps'.core.traced
      rw [hcore]
    simp only [PtraceBackend.handleOwnStop, htraced]
    split
    · simp only [ProcessState.core, ProcessState.mk.injEq] at hcore
      refine ⟨?_, rfl⟩
      simp only [ProcessState.core, hcore]
    · exact ⟨hcore, rfl⟩
  | sigtrap => exact ⟨hcore, rfl⟩
  | fork => exact ⟨hcore, rfl⟩

private theorem handleOwnStop_quiet (h : Quiet ps) {stop : Stop} (hother : stop ≠ .syscall ∧ stop ≠ .seccomp) :
    Quiet (b.handleOwnStop v pid ps stop).1.1 := by
  cases stop with
  | syscall => exact absurd rfl hother.1
  | seccomp => exact absurd rfl hother.2
  | exec => exact ⟨rfl, .inr rfl⟩
  | signal sig =>
    simp only [PtraceBackend.handleOwnStop]
    split
    · exact ⟨h.exitNeeded, h.pending⟩
    · exact h
  | _ => exact ⟨h.exitNeeded, h.pending⟩

private theorem forkedEntry_core {old old' : Option ProcessState}
    (h : old.map ProcessState.core = old'.map ProcessState.core)
    (child : Int) (cwd cmdline : Str) :
    (PtraceBackend.forkedEntry old pid child cwd cmdline).core =
      (PtraceBackend.forkedEntry old' pid child cwd cmdline).core := by
  cases old with
  | none => rw [Option.map_eq_none_iff.mp h.symm]
  | some ps =>
    obtain ⟨ps', rfl, hcore⟩ := Option.map_eq_some_iff.mp h.symm
    have hppid : ps.ppid = ps'.ppid := by
      change ps.core.ppid = ps'.core.ppid
      rw [hcore]
    simp only [PtraceBackend.forkedEntry, hppid]
    split
    · rfl
    · simp only [ProcessState.core, ProcessState.mk.injEq] at hcore
      simp only [ProcessState.core, hcore]

/-- An entry that a fork event leaves is quiet if the one before it was. -/
private theorem forkedEntry_quiet {old : Option ProcessState} (h : ∀ ps ∈ old, Quiet ps) (child : Int)
    (cwd cmdline : Str) :
    Quiet (PtraceBackend.forkedEntry old pid child cwd cmdline) := by
  cases old with
  | none => exact ⟨rfl, .inr rfl⟩
  | some ps =>
    have hps := h ps rfl
    simp only [PtraceBackend.forkedEntry]
    split
    · exact ⟨rfl, .inr rfl⟩
    · exact ⟨hps.exitNeeded, hps.pending⟩

private theorem handleForkEvent_core (h : SameCores b b') (child : Int) (cwd cmdline : Str) :
    SameCores (b.handleForkEvent v pid child cwd cmdline).1 (b'.handleForkEvent v' pid child cwd cmdline).1 ∧
      untimed (b.handleForkEvent v pid child cwd cmdline).2 =
        untimed (b'.handleForkEvent v' pid child cwd cmdline).2 := by
  have hparent := h.entry pid
  have hcwd : (b.entry pid).cachedCwd = (b'.entry pid).cachedCwd := by
    change (b.entry pid).core.cachedCwd = (b'.entry pid).core.cachedCwd
    rw [hparent]
  have hcmdline : (b.entry pid).cachedCmdline = (b'.entry pid).cachedCmdline := by
    change (b.entry pid).core.cachedCmdline = (b'.entry pid).core.cachedCmdline
    rw [hparent]
  simp only [PtraceBackend.handleForkEvent, hcwd, hcmdline]
  split
  · exact ⟨h, rfl⟩
  · exact ⟨h.track child (forkedEntry_core (h child) child _ _), rfl⟩

/-- Every other stop of the task keeps the cores the same, and leads to the same calls. -/
theorem handleReport_core (h : SameCores b b') (hsame : v.Same v') {stop : Stop}
    (hother : stop ≠ .syscall ∧ stop ≠ .seccomp) :
    SameCores (b.handleReport v pid (.stopped stop)).backend (b'.handleReport v' pid (.stopped stop)).backend ∧
      untimed (b.handleReport v pid (.stopped stop)).calls =
        untimed (b'.handleReport v' pid (.stopped stop)).calls := by
  have hcore := h.entry pid
  have htrack := h.track pid hcore
  cases hforks : (WaitStatus.stopped stop).forks with
  | false =>
    have hown := @handleOwnStop_core (b.track pid (b.entry pid)) (b'.track pid (b'.entry pid)) _ _ v v' pid hsame hcore
      stop hother
    rw [b.handleReport_own_eq v pid hforks, b'.handleReport_own_eq v' pid hforks]
    exact ⟨htrack.track pid hown.1, hown.2⟩
  | true =>
    cases stop with
    | fork child cwd cmdline => exact handleForkEvent_core htrack child cwd cmdline
    | _ => cases hforks

theorem handleReport_quiet (hps : b.procs pid = some ps) (h : Quiet ps) {stop : Stop}
    (hother : stop ≠ .syscall ∧ stop ≠ .seccomp) :
    ∃ ps', (b.handleReport v pid (.stopped stop)).backend.procs pid = some ps' ∧ Quiet ps' := by
  have hentry : b.entry pid = ps := by rw [PtraceBackend.entry, hps, Option.getD_some]
  cases hforks : (WaitStatus.stopped stop).forks with
  | false =>
    rw [(b.handleReport_own_entry v pid hforks).1, hentry]
    exact ⟨_, rfl, handleOwnStop_quiet h hother⟩
  | true =>
    cases stop with
    | fork child cwd cmdline =>
      simp only [PtraceBackend.handleReport, PtraceBackend.handleForkEvent]
      split
      · exact ⟨_, PtraceBackend.track_self .., hentry.symm ▸ h⟩
      · by_cases hchild : pid = child
        · subst hchild
          refine ⟨_, PtraceBackend.track_self .., forkedEntry_quiet ?_ pid _ _⟩
          intro ps' hps'
          rw [PtraceBackend.track_self, Option.mem_some_iff, hentry] at hps'
          exact hps' ▸ h
        · rw [PtraceBackend.track_of_ne _ _ _ hchild, PtraceBackend.track_self]
          exact ⟨_, rfl, hentry.symm ▸ h⟩
    | _ => cases hforks

theorem handleReport_resumes {stop : Stop} (hother : stop ≠ .seccomp) :
    ((b.handleReport v pid (.stopped stop)).restart.map (·.1)) = some (resumeRequest b.procsOnly b.seccompMode) := by
  cases stop with
  | seccomp => exact absurd rfl hother
  | signal sig =>
    rw [b.handleReport_signal_restart]
    rfl
  | _ => rfl

/-- A death is reported with what the exit event left. -/
theorem handleReport_death (h : SameCores b b') {status : WaitStatus} (hends : status.ends = true) :
    untimed (b.handleReport v pid status).calls = untimed (b'.handleReport v' pid status).calls := by
  have hcore := (h.track pid (h.entry pid)).entry pid
  simp only [ProcessState.core, ProcessState.mk.injEq] at hcore
  cases status with
  | exited code =>
    simp only [PtraceBackend.handleReport, PtraceBackend.handleExited, untimed, List.map_cons, List.map_nil,
      SessionCall.untimed, hcore]
  | signaled sig =>
    simp only [PtraceBackend.handleReport, PtraceBackend.handleExited, untimed, List.map_cons, List.map_nil,
      SessionCall.untimed, hcore]
  | stopped stop => cases hends

end Cores

end Bdtrace
