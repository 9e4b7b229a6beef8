import Bdtrace.Tracer.EntryCores

/-! The run of a 32-bit task in classic mode beside its run in seccomp mode. -/
namespace Bdtrace

/-- The task is to stop at each call. -/
def ForeignRun.Classic (r : ForeignRun) : Prop :=
  r.backend.procsOnly = false ∧ r.backend.seccompMode = false ∧ r.restart = .syscall

/-- The run in classic mode and the run in seccomp mode, in which the task never stops for a call. -/
structure ForeignRun.Alike (pid : Int) (c s : ForeignRun) : Prop where
  cores : SameCores c.backend s.backend
  quiet : ∃ ps, c.backend.procs pid = some ps ∧ Quiet ps
  classic : c.Classic
  seccomp : s.backend.procsOnly = false ∧ s.backend.seccompMode = true ∧ s.restart = .cont
  calls : untimed c.calls = untimed s.calls
  inspected : c.inspected = [] ∧ s.inspected = []

/-- The filter allows every call of another architecture. -/
theorem I386Regs.verdict_eq (regs : I386Regs) : regs.seccompData.verdict = some seccompRetAllow := by
  rw [SeccompData.verdict_eq, if_neg]
  intro h
  cases h.1

namespace ForeignRun
variable (clock clock' : Nat → Int) {pid : Int} {c s : ForeignRun}

theorem enter_eq (r : ForeignRun) (regs : I386Regs) (view : TraceeView) :
    r.enter clock pid regs view = r.syscallStop clock pid (regs.shown (BitVec.ofInt 64 (-enosys))) view := by
  have hallow : (some seccompRetAllow == some seccompRetTrace) = false := by decide
  simp only [enter, regs.verdict_eq, hallow, Bool.and_false, Bool.false_eq_true, if_false]

/-- The result of a call is not needed to tell whether its exit is. -/
private theorem shown_needed (regs : I386Regs) (rax : BitVec 64) : (regs.shown rax).needed = regs.mistaken := rfl

theorem syscallStop_classic {r : ForeignRun} (hc : r.Classic) {ps : ProcessState} (hps : r.backend.procs pid = some ps)
    (regs : Regs) (view : TraceeView) :
    ∃ seen : TraceeView, seen = { view with regs := some regs, now := clock r.stops } ∧
      r.syscallStop clock pid regs view =
        { backend := (r.backend.track pid ps).track pid (handleSyscallStop seen pid ps).1
          restart := .syscall, stops := r.stops + 1, calls := r.calls ++ (handleSyscallStop seen pid ps).2
          inspected := r.inspected ++ (handleSyscallStop seen pid ps).2 } := by
  refine ⟨_, rfl, ?_⟩
  have hentry : r.backend.entry pid = ps := by rw [PtraceBackend.entry, hps, Option.getD_some]
  rw [syscallStop, if_pos hc.2.2, report]
  generalize ({ view with regs := some regs, now := clock r.stops } : TraceeView) = seen
  have hreport := @PtraceBackend.handleReport_own_eq r.backend seen pid .syscall rfl
  have hresume : (r.backend.track pid ps).resume 0 = some (.syscall, 0) := by
    rw [PtraceBackend.resume, PtraceBackend.track, hc.1, hc.2.1]
    rfl
  rw [hentry] at hreport
  simp only [hreport, PtraceBackend.handleOwnStop, hresume, true_or, if_true]
  rfl

/-- A syscall stop, which only classic mode reports. -/
theorem Alike.syscallStop (h : Alike pid c s) {regs : Regs} (hneed : regs.rax.toInt = -enosys → regs.needed = false)
    (view : TraceeView) : Alike pid (c.syscallStop clock pid regs view) (s.syscallStop clock' pid regs view) := by
  obtain ⟨ps, hps, hquiet⟩ := h.quiet
  have hs : s.syscallStop clock' pid regs view = s := by
    rw [ForeignRun.syscallStop, h.seccomp.2.2]
    rfl
  obtain ⟨seen, hseen, hc⟩ := syscallStop_classic clock h.classic hps regs view
  have hregs : seen.regs = some regs := by rw [hseen]
  obtain ⟨hnone, hcore, hstill⟩ := @handleSyscallStop_quiet ps seen pid hquiet regs hregs hneed
  rw [hs, hc, hnone, List.append_nil, List.append_nil]
  refine ⟨?_, ⟨_, PtraceBackend.track_self .., hstill⟩, ⟨h.classic.1, h.classic.2.1, rfl⟩, h.seccomp,
    h.calls, h.inspected⟩
  have htrack : SameCores (c.backend.track pid ps) s.backend := h.cores.track_left hps rfl
  exact htrack.track_left (PtraceBackend.track_self ..) hcore

/-- Any other stop, which both modes report. -/
theorem Alike.report (h : Alike pid c s) {stop : Stop} (hother : stop ≠ .syscall ∧ stop ≠ .seccomp)
    (view : TraceeView) :
    Alike pid (c.report clock pid view (.stopped stop)) (s.report clock' pid view (.stopped stop)) := by
  obtain ⟨ps, hps, hquiet⟩ := h.quiet
  have hsame : TraceeView.Same { view with now := clock c.stops } { view with now := clock' s.stops } := fun _ => rfl
  have hcore := @handleReport_core c.backend s.backend _ _ pid h.cores hsame stop hother
  have hcmode := c.backend.handleReport_mode { view with now := clock c.stops } pid (.stopped stop)
  have hsmode := s.backend.handleReport_mode { view with now := clock' s.stops } pid (.stopped stop)
  have hinspects : ¬(WaitStatus.stopped stop = .stopped .syscall ∨ WaitStatus.stopped stop = .stopped .seccomp) := by
    simpa only [WaitStatus.stopped.injEq, not_or] using hother
  refine ⟨hcore.1, handleReport_quiet hps hquiet hother, ?_, ?_, ?_, ?_⟩
  · refine ⟨hcmode.1.trans h.classic.1, hcmode.2.trans h.classic.2.1, ?_⟩
    simp only [ForeignRun.report, handleReport_resumes hother.2, h.classic.1, h.classic.2.1]
    rfl
  · refine ⟨hsmode.1.trans h.seccomp.1, hsmode.2.trans h.seccomp.2.1, ?_⟩
    simp only [ForeignRun.report, handleReport_resumes hother.2, h.seccomp.1, h.seccomp.2.1]
    rfl
  · rw [ForeignRun.report, ForeignRun.report, untimed_append, untimed_append, h.calls, hcore.2]
  · simp only [ForeignRun.report, if_neg hinspects]
    exact h.inspected

theorem Alike.others (h : Alike pid c s) (stops : List (OtherStop × TraceeView)) :
    Alike pid (c.others clock pid stops) (s.others clock' pid stops) := by
  induction stops generalizing c s with
  | nil => exact h
  | cons stop stops ih => exact ih (h.report clock clock' stop.1.2 stop.2)

theorem Alike.enter (h : Alike pid c s) {regs : I386Regs} (hneed : regs.mistaken = false) (view : TraceeView) :
    Alike pid (c.enter clock pid regs view) (s.enter clock' pid regs view) := by
  rw [enter_eq, enter_eq]
  exact h.syscallStop clock clock' (fun _ => (shown_needed regs _).trans hneed) view

/-- One call that is not taken for another. -/
theorem Alike.perform (h : Alike pid c s) {sc : ForeignCall} (hneed : sc.regs.mistaken = false) :
    Alike pid (c.perform clock pid sc) (s.perform clock' pid sc) := by
  have hinside := (h.enter clock clock' hneed sc.entry).others clock clock' sc.inside
  have hexit := hinside.syscallStop clock clock' (fun _ => (shown_needed sc.regs sc.ret).trans hneed) sc.exit
  exact hexit.others clock clock' sc.after

theorem Alike.performAll (h : Alike pid c s) (scs : List ForeignCall) (hneed : ∀ sc ∈ scs, sc.regs.mistaken = false) :
    Alike pid (scs.foldl (ForeignRun.perform clock pid) c) (scs.foldl (ForeignRun.perform clock' pid) s) := by
  induction scs generalizing c s with
  | nil => exact h
  | cons sc scs ih =>
    apply ih
    · exact h.perform clock clock' (hneed sc List.mem_cons_self)
    · exact fun sc' hsc' => hneed sc' (List.mem_cons_of_mem sc hsc')

theorem start_alike {procs : Int → Option ProcessState} {ps : ProcessState} (hps : procs pid = some ps) (h : Quiet ps) :
    Alike pid (start false procs) (start true procs) :=
  ⟨fun _ => rfl, ⟨ps, hps, h⟩, ⟨rfl, rfl, rfl⟩, ⟨rfl, rfl, rfl⟩, rfl, rfl, rfl⟩

theorem Alike.arrive (h : Alike pid c s) (born : Option (I386Regs × TraceeView)) :
    Alike pid (c.arrive clock pid born) (s.arrive clock' pid born) := by
  cases born with
  | none => exact h
  | some b =>
    apply h.syscallStop clock clock'
    intro hrax
    cases hrax

theorem Alike.depart (h : Alike pid c s) (last : Option (I386Regs × TraceeView × List (OtherStop × TraceeView)))
    (hneed : ∀ l ∈ last, l.1.mistaken = false) : Alike pid (c.depart clock pid last) (s.depart clock' pid last) := by
  cases last with
  | none => exact h
  | some l => exact (h.enter clock clock' (hneed l rfl) l.2.1).others clock clock' l.2.2

/-- A task whose calls are not taken for others. -/
theorem live_alike (h : Alike pid c s) (t : ForeignHistory) (hneed : ∀ regs ∈ t.registers, regs.mistaken = false) :
    untimed (c.live clock pid t).calls = untimed (s.live clock' pid t).calls ∧
      (c.live clock pid t).inspected = [] ∧ (s.live clock' pid t).inspected = [] := by
  have hcalls := (h.arrive clock clock' t.born).performAll clock clock' t.calls fun sc hsc =>
    hneed _ (List.mem_append_left _ (List.mem_map_of_mem hsc))
  have hlast := hcalls.depart clock clock' t.last fun l hl =>
    hneed _ (List.mem_append_right _ (Option.mem_toList.mpr (Option.mem_map_of_mem (·.1) hl)))
  have hinspects : ¬(t.death = .stopped .syscall ∨ t.death = .stopped .seccomp) := by
    intro hstop
    have hends := t.ends
    rcases hstop with hstop | hstop
    · rw [hstop] at hends
      cases hends
    · rw [hstop] at hends
      cases hends
  rw [live, live, ForeignRun.report, ForeignRun.report]
  refine ⟨?_, ?_, ?_⟩
  · rw [untimed_append, untimed_append, hlast.calls]
    congr 1
    exact handleReport_death hlast.cores t.ends
  · rw [if_neg hinspects]
    exact hlast.inspected.1
  · rw [if_neg hinspects]
    exact hlast.inspected.2

end ForeignRun
end Bdtrace
