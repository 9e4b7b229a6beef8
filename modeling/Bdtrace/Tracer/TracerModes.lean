import Bdtrace.Session.Pipeline
import Bdtrace.Tracer.EventLoop

/-! What the mode of the tracer does not change at one report. -/
namespace Bdtrace

/-- One return of `waitpid`, with what the tracer can read of the task at that moment. -/
structure Report where
  view : TraceeView
  pid : Int
  status : WaitStatus

/-- The stops that only full tracing asks for. -/
def Report.atSyscall (r : Report) : Bool := r.status matches .stopped .syscall | .stopped .seccomp

/-- The tracer between two reports: its calls of the session so far, and the signals it passed on to tasks. -/
structure ReportRun where
  backend : PtraceBackend
  calls : List SessionCall := []
  signals : List (Int × Int) := []

namespace ReportRun

/-- A restart with signal 0 passes none on. -/
def passedOn (pid : Int) : Option (Restart × Int) → List (Int × Int)
  | none => []
  | some (_, sig) => if sig = 0 then [] else [(pid, sig)]

def start (procsOnly seccompMode : Bool) (tracer root : Int) (view : TraceeView) : ReportRun :=
  let started := PtraceBackend.start procsOnly seccompMode tracer root view
  { backend := started.backend, calls := started.calls, signals := passedOn root started.restart }

def step (s : ReportRun) (r : Report) : ReportRun :=
  let handled := s.backend.handleReport r.view r.pid r.status
  { backend := handled.backend, calls := s.calls ++ handled.calls
    signals := s.signals ++ passedOn r.pid handled.restart }

def run (s : ReportRun) (rs : List Report) : ReportRun := rs.foldl step s

end ReportRun

/-! ### What a mode does not change -/

/-- An entry without its working directory and without the system call it is in. -/
def ProcessState.lasting (ps : ProcessState) : ProcessState :=
  { ps with scPhase := .unknown, exitNeeded := false, pendingSyscall := -1, pendingPathAddr := 0
            pendingPathAddr2 := 0, pendingFlags := 0, cachedCwd := [] }

/-- A call without the working directory of the process that starts. -/
def SessionCall.placeless : SessionCall → SessionCall
  | .processStart rec => .processStart { rec with cwd := [] }
  | c => c

/-- The calls about the process itself. -/
def SessionCall.ofProcess : SessionCall → Bool
  | .processStart _ | .processExit .. | .deleteProcess _ => true
  | .fileAccess _ | .failedAccess _ => false

namespace PtraceBackend

/-- Two tracers that know the same of each task. -/
def SameTasks (b b' : PtraceBackend) : Prop := ∀ q, (b.entry q).lasting = (b'.entry q).lasting

/-- The entry of a fork's child in terms of the entry that a report of the child would find. -/
private theorem forkedEntry_lasting (b : PtraceBackend) (pid child : Int) (cwd cmdline : Str) :
    (forkedEntry (b.procs child) pid child cwd cmdline).lasting =
      if (b.entry child).lasting.ppid ≠ 0 then (ProcessState.registered child pid [] cmdline).lasting
      else { (b.entry child).lasting with ppid := pid, cachedCmdline := cmdline } := by
  cases h : b.procs child with
  | none => simp [forkedEntry, entry, h, ProcessState.lasting, ProcessState.registered]
  | some ps =>
    simp only [forkedEntry, entry, h, Option.getD_some, ProcessState.lasting]
    split <;> rfl

private theorem entry_track (b : PtraceBackend) (pid : Int) (ps : ProcessState) (q : Int) :
    (b.track pid ps).entry q = if q = pid then ps else b.entry q := by
  by_cases h : q = pid
  · subst h
    simp [entry, track]
  · simp only [entry, track_of_ne b pid ps h, if_neg h]

private theorem entry_untrack (b : PtraceBackend) (pid q : Int) :
    (b.untrack pid).entry q = if q = pid then { pid := pid } else b.entry q := by
  by_cases h : q = pid
  · subst h
    simp [entry, untrack]
  · simp [entry, untrack, h]

/-- A report makes the entry of its task even when it changes nothing. -/
@[simp] theorem entry_track_entry (b : PtraceBackend) (pid q : Int) :
    (b.track pid (b.entry pid)).entry q = b.entry q := by
  rw [entry_track]
  split
  · rename_i h
    rw [h]
  · rfl

theorem SameTasks.track {b b' : PtraceBackend} (h : b.SameTasks b') (pid : Int) {ps ps' : ProcessState}
    (hps : ps.lasting = ps'.lasting) : (b.track pid ps).SameTasks (b'.track pid ps') := by
  intro q
  rw [entry_track, entry_track]
  split
  · exact hps
  · exact h q

private theorem lasting_eq_iff {ps ps' : ProcessState} : ps.lasting = ps'.lasting ↔
    (ps.pid = ps'.pid ∧ ps.ppid = ps'.ppid ∧ ps.traced = ps'.traced ∧ ps.cachedCmdline = ps'.cachedCmdline) ∧
      ps.userTimeUs = ps'.userTimeUs ∧ ps.sysTimeUs = ps'.sysTimeUs ∧ ps.peakRssKb = ps'.peakRssKb ∧
        ps.ioReadBytes = ps'.ioReadBytes ∧ ps.ioWriteBytes = ps'.ioWriteBytes := by
  simp only [ProcessState.lasting, ProcessState.mk.injEq, true_and, and_assoc]

/-! ### The stops at system calls -/

private theorem handleSyscallStop_lasting (view : TraceeView) (pid : Int) (ps : ProcessState) :
    (handleSyscallStop view pid ps).1.lasting = ps.lasting ∧ ∀ c ∈ (handleSyscallStop view pid ps).2,
      c.AccessOf pid := by
  have hnone : ∀ c ∈ ([] : List SessionCall), c.AccessOf pid := by
    intro c hc
    cases hc
  unfold handleSyscallStop
  split
  · exact ⟨rfl, hnone⟩
  · split
    · exact ⟨rfl, hnone⟩
    · split
      · exact ⟨rfl, hnone⟩
      · rename_i regs _ _ _
        have hrec := recordExit_records view pid { ps with scPhase := .entryNext } regs.rax
        refine ⟨?_, hrec.accesses⟩
        dsimp only
        rw [hrec.frame]
        rfl

private theorem handleSeccompStop_lasting (view : TraceeView) (ps : ProcessState) :
    (handleSeccompStop view ps).1.lasting = ps.lasting := by
  unfold handleSeccompStop
  split
  · rfl
  · dsimp only
    split <;> rfl

private theorem access_not_ofProcess {c : SessionCall} {pid : Int} (h : c.AccessOf pid) : c.ofProcess = false := by
  cases c with
  | fileAccess rec => rfl
  | failedAccess rec => rfl
  | _ => exact h.elim

/-- A stop at a system call changes nothing that lasts, calls for accesses at most and passes no signal on. -/
theorem handleReport_atSyscall {b b' : PtraceBackend} (h : b.SameTasks b') {r : Report} (hr : r.atSyscall = true) :
    (b.handleReport r.view r.pid r.status).backend.SameTasks b' ∧
      (∀ c ∈ (b.handleReport r.view r.pid r.status).calls, c.ofProcess = false) ∧
      ReportRun.passedOn r.pid (b.handleReport r.view r.pid r.status).restart = [] := by
  obtain ⟨view, pid, status⟩ := r
  have htouch : ∀ ps : ProcessState, ps.lasting = (b.entry pid).lasting →
      ((b.track pid (b.entry pid)).track pid ps).SameTasks b' := by
    intro ps hps q
    rw [entry_track]
    split
    · rename_i hq
      rw [hps, hq]
      exact h pid
    · rw [entry_track_entry]
      exact h q
  cases status with
  | stopped stop =>
    cases stop with
    | syscall =>
      have hstop := handleSyscallStop_lasting view pid (b.entry pid)
      exact ⟨htouch _ hstop.1, fun c hc => access_not_ofProcess (hstop.2 c hc), rfl⟩
    | seccomp =>
      exact ⟨htouch _ (handleSeccompStop_lasting view (b.entry pid)), fun c hc => (by cases hc), rfl⟩
    | _ => cases hr
  | _ => cases hr

/-! ### Every other report -/

private theorem handleOwnStop_lasting (b b' : PtraceBackend) (view : TraceeView) (pid : Int) {ps ps' : ProcessState}
    (h : ps.lasting = ps'.lasting) {stop : Stop} (hr : (⟨view, pid, .stopped stop⟩ : Report).atSyscall = false) :
    (b.handleOwnStop view pid ps stop).1.1.lasting = (b'.handleOwnStop view pid ps' stop).1.1.lasting ∧
      (b.handleOwnStop view pid ps stop).1.2.map SessionCall.placeless =
        (b'.handleOwnStop view pid ps' stop).1.2.map SessionCall.placeless ∧
      ReportRun.passedOn pid (b.handleOwnStop view pid ps stop).2 =
        ReportRun.passedOn pid (b'.handleOwnStop view pid ps' stop).2 := by
  obtain ⟨⟨hpid, hppid, htraced, hcmd⟩, husage⟩ := lasting_eq_iff.mp h
  cases stop with
  | exec =>
    refine ⟨lasting_eq_iff.mpr ⟨⟨hpid, hppid, htraced, rfl⟩, husage⟩, ?_, rfl⟩
    simp only [handleOwnStop, handleExecEvent, hppid]
  | exit usage => exact ⟨lasting_eq_iff.mpr ⟨⟨hpid, hppid, htraced, hcmd⟩, rfl, rfl, rfl, rfl, rfl⟩, rfl, rfl⟩
  | signal sig =>
    simp only [handleOwnStop, htraced]
    split
    · exact ⟨lasting_eq_iff.mpr ⟨⟨hpid, hppid, rfl, hcmd⟩, husage⟩, rfl, rfl⟩
    · exact ⟨h, rfl, rfl⟩
  | sigtrap => exact ⟨h, rfl, rfl⟩
  | fork child cwd cmdline => exact ⟨h, rfl, rfl⟩
  | _ => cases hr

private theorem handleForkEvent_lasting {b b' : PtraceBackend} (h : b.SameTasks b') (view : TraceeView)
    (pid child : Int) (cwd cmdline : Str) :
    (b.handleForkEvent view pid child cwd cmdline).1.SameTasks (b'.handleForkEvent view pid child cwd cmdline).1 ∧
      (b.handleForkEvent view pid child cwd cmdline).2.map SessionCall.placeless =
        (b'.handleForkEvent view pid child cwd cmdline).2.map SessionCall.placeless := by
  obtain ⟨⟨-, -, -, hcmd⟩, -⟩ := lasting_eq_iff.mp (h pid)
  unfold handleForkEvent
  split
  · exact ⟨h, rfl⟩
  · dsimp only
    rw [hcmd]
    refine ⟨h.track child ?_, rfl⟩
    rw [forkedEntry_lasting, forkedEntry_lasting, h child]

/-- The other reports mean the same to two tracers that know the same of each task, whatever their modes. -/
theorem handleReport_lasting {b b' : PtraceBackend} (h : b.SameTasks b') {r : Report} (hr : r.atSyscall = false) :
    (b.handleReport r.view r.pid r.status).backend.SameTasks (b'.handleReport r.view r.pid r.status).backend ∧
      (b.handleReport r.view r.pid r.status).calls.map SessionCall.placeless =
        (b'.handleReport r.view r.pid r.status).calls.map SessionCall.placeless ∧
      ReportRun.passedOn r.pid (b.handleReport r.view r.pid r.status).restart =
        ReportRun.passedOn r.pid (b'.handleReport r.view r.pid r.status).restart := by
  obtain ⟨view, pid, status⟩ := r
  have hentered := h.track pid (h pid)
  have hexit : ∀ code, ((b.track pid (b.entry pid)).handleExited view pid code).backend.SameTasks
        ((b'.track pid (b'.entry pid)).handleExited view pid code).backend ∧
      ((b.track pid (b.entry pid)).handleExited view pid code).calls =
        ((b'.track pid (b'.entry pid)).handleExited view pid code).calls := by
    intro code
    obtain ⟨-, huser, hsys, hrss, hread, hwrite⟩ := lasting_eq_iff.mp (h pid)
    refine ⟨fun q => ?_, ?_⟩
    · simp only [handleExited, entry_untrack]
      split
      · rfl
      · exact hentered q
    · simp only [handleExited, entry_track_entry, huser, hsys, hrss, hread, hwrite]
  cases status with
  | exited code => exact ⟨(hexit code).1, congrArg _ (hexit code).2, rfl⟩
  | signaled sig => exact ⟨(hexit (-sig)).1, congrArg _ (hexit (-sig)).2, rfl⟩
  | stopped stop =>
    by_cases hfork : (WaitStatus.stopped stop).forks = true
    · cases stop with
      | fork child cwd cmdline =>
        obtain ⟨htasks, hcalls⟩ := handleForkEvent_lasting hentered view pid child cwd cmdline
        exact ⟨htasks, hcalls, rfl⟩
      | _ => cases hfork
    · rw [Bool.not_eq_true] at hfork
      dsimp only
      rw [handleReport_own_eq b view pid hfork, handleReport_own_eq b' view pid hfork]
      obtain ⟨hps, hcalls, hsig⟩ := handleOwnStop_lasting (b.track pid (b.entry pid)) (b'.track pid (b'.entry pid)) view
        pid (h pid) hr
      exact ⟨hentered.track pid hps, hcalls, hsig⟩

/-- Away from system calls a report calls for no access but that of an executed file. -/
theorem handleReport_accesses (b : PtraceBackend) {r : Report} (hr : r.atSyscall = false) {c : SessionCall}
    (hc : c ∈ (b.handleReport r.view r.pid r.status).calls) :
    c.ofProcess = true ∨ ∃ rec : FileAccessRecord, c = .fileAccess rec ∧ rec.mode = .exec := by
  obtain ⟨view, pid, status⟩ := r
  have hexited : ∀ code, c ∈ ((b.track pid (b.entry pid)).handleExited view pid code).calls → c.ofProcess = true := by
    intro code hc
    rw [List.mem_singleton.mp hc]
    rfl
  cases status with
  | exited code => exact .inl (hexited code hc)
  | signaled sig => exact .inl (hexited (-sig) hc)
  | stopped stop =>
    cases stop with
    | fork child cwd cmdline =>
      simp only [handleReport, handleForkEvent] at hc
      split at hc
      · cases hc
      · rw [List.mem_singleton.mp hc]
        exact .inl rfl
    | exec =>
      rcases List.mem_append.mp hc with hexec | hrow
      · simp only [execAccess] at hexec
        split at hexec
        · cases hexec
        · exact .inr ⟨_, List.mem_singleton.mp hexec, rfl⟩
      · simp only [List.mem_cons, List.not_mem_nil, or_false] at hrow
        rcases hrow with rfl | rfl <;> exact .inl rfl
    | exit usage => cases hc
    | sigtrap => cases hc
    | signal sig =>
      have hnone := (@handleReport_calls b view pid (.signal sig) rfl (by simp)).2
      rw [hnone] at hc
      cases hc
    | _ => cases hr

end PtraceBackend

end Bdtrace
