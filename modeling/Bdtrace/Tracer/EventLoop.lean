import Bdtrace.Tracer.SyscallStops

/-! The event loop: what each report of `waitpid` does to the tracked tasks and calls for. -/
namespace Bdtrace

/-- What `/proc` shows of a task that is about to exit. -/
structure ResourceUsage where
  userTimeUs : Int := 0
  sysTimeUs : Int := 0
  peakRssKb : Int := 0
  ioReadBytes : Int := 0
  ioWriteBytes : Int := 0
  deriving DecidableEq, Repr

/-- A ptrace stop. A fork, vfork or clone event names the child; `cwd` and `cmdline` are what `/proc`
shows of it. -/
inductive Stop where
  | fork (child : Int) (cwd cmdline : Str)
  | exec
  | exit (usage : ResourceUsage)
  | seccomp
  | syscall
  | sigtrap
  | signal (sig : Int)
  deriving DecidableEq, Repr

inductive WaitStatus where
  | exited (code : Int)
  | signaled (sig : Int)
  | stopped (stop : Stop)
  deriving DecidableEq, Repr

/-- The reports that end a task. -/
def WaitStatus.ends : WaitStatus → Bool
  | .exited _ | .signaled _ => true
  | .stopped _ => false

def WaitStatus.forks : WaitStatus → Bool
  | .stopped (.fork ..) => true
  | _ => false

def sigstop : Int := 19

structure PtraceBackend where
  procs : Int → Option ProcessState := fun _ => none
  procsOnly : Bool := false
  seccompMode : Bool := false

/-- The tracer after a report, its calls of the session, and the restart with its signal. -/
structure Handled where
  backend : PtraceBackend
  calls : List SessionCall := []
  restart : Option (Restart × Int) := none

namespace PtraceBackend

def track (b : PtraceBackend) (pid : Int) (ps : ProcessState) : PtraceBackend :=
  { b with procs := Function.update b.procs pid (some ps) }

def untrack (b : PtraceBackend) (pid : Int) : PtraceBackend :=
  { b with procs := Function.update b.procs pid none }

/-- The entry of a pid, which a report creates when there is none. -/
def entry (b : PtraceBackend) (pid : Int) : ProcessState := (b.procs pid).getD { pid := pid }

def resume (b : PtraceBackend) (sig : Int) : Option (Restart × Int) :=
  some (resumeRequest b.procsOnly b.seccompMode, sig)

/-- `start`: the root is registered with the tracer as its parent. -/
def start (procsOnly seccompMode : Bool) (tracer root : Int) (view : TraceeView) : Handled :=
  let b : PtraceBackend := { procsOnly := procsOnly, seccompMode := seccompMode }
  { backend := b.track root (.registered root tracer view.cwd view.cmdline)
    calls := [.processStart { pid := root, ppid := tracer, cmdline := view.cmdline, cwd := view.cwd
                              startTimeUs := view.now }]
    restart := b.resume 0 }

/-- The entry that a fork event leaves for the child: an entry whose parent is known is left over from
an earlier owner of the pid. -/
def forkedEntry (old : Option ProcessState) (pid child : Int) (cwd cmdline : Str) : ProcessState :=
  match old with
  | none => .registered child pid cwd cmdline
  | some ps =>
    if ps.ppid ≠ 0 then .registered child pid cwd cmdline
    else { ps with ppid := pid, cachedCwd := cwd, cachedCmdline := cmdline }

def handleForkEvent (b : PtraceBackend) (view : TraceeView) (pid child : Int) (childCwd childCmdline : Str) :
    PtraceBackend × List SessionCall :=
  if child = 0 then (b, [])
  else
    let parent := b.entry pid
    let cwd := if parent.cachedCwd ≠ [] then parent.cachedCwd else childCwd
    let cmdline := if parent.cachedCmdline ≠ [] then parent.cachedCmdline else childCmdline
    (b.track child (forkedEntry (b.procs child) pid child cwd cmdline),
      [.processStart { pid := child, ppid := pid, cmdline := cmdline, cwd := cwd, startTimeUs := view.now }])

def handleExitEvent (usage : ResourceUsage) (ps : ProcessState) : ProcessState :=
  { ps with userTimeUs := usage.userTimeUs, sysTimeUs := usage.sysTimeUs, peakRssKb := usage.peakRssKb
            ioReadBytes := usage.ioReadBytes, ioWriteBytes := usage.ioWriteBytes }

def handleExited (b : PtraceBackend) (view : TraceeView) (pid exitCode : Int) : Handled :=
  let ps := b.entry pid
  { backend := b.untrack pid
    calls := [.processExit pid {
      endTimeUs := view.now, exitCode := exitCode, userTimeUs := ps.userTimeUs, sysTimeUs := ps.sysTimeUs
      peakRssKb := ps.peakRssKb, ioReadBytes := ps.ioReadBytes, ioWriteBytes := ps.ioWriteBytes }] }

/-- The stops that concern only the task's own entry. -/
def handleOwnStop (b : PtraceBackend) (view : TraceeView) (pid : Int) (ps : ProcessState) :
    Stop → (ProcessState × List SessionCall) × Option (Restart × Int)
  | .exec => (handleExecEvent view pid ps, b.resume 0)
  | .exit usage => ((handleExitEvent usage ps, []), b.resume 0)
  | .seccomp => (((handleSeccompStop view ps).1, []), some ((handleSeccompStop view ps).2, 0))
  | .syscall => (handleSyscallStop view pid ps, b.resume 0)
  | .signal sig =>
    -- the first SIGSTOP of a new task is not its own
    if sig = sigstop ∧ ps.traced = false then (({ ps with traced := true }, []), b.resume 0)
    else ((ps, []), b.resume sig)
  | .sigtrap | .fork .. => ((ps, []), b.resume 0)

/-- The body of `run_event_loop` after `waitpid`. -/
def handleReport (b : PtraceBackend) (view : TraceeView) (pid : Int) (status : WaitStatus) : Handled :=
  let ps := b.entry pid
  let b := b.track pid ps
  match status with
  | .exited code => b.handleExited view pid code
  | .signaled sig => b.handleExited view pid (-sig)
  | .stopped (.fork child cwd cmdline) =>
    let forked := b.handleForkEvent view pid child cwd cmdline
    { backend := forked.1, calls := forked.2, restart := b.resume 0 }
  | .stopped stop =>
    let handled := b.handleOwnStop view pid ps stop
    { backend := b.track pid handled.1.1, calls := handled.1.2, restart := handled.2 }

/-! ### What a report can do -/

section
variable (b : PtraceBackend) (view : TraceeView) (pid : Int)

@[simp] theorem track_self (ps : ProcessState) : (b.track pid ps).procs pid = some ps := Function.update_self ..

theorem track_of_ne (ps : ProcessState) {q : Int} (h : q ≠ pid) : (b.track pid ps).procs q = b.procs q :=
  Function.update_of_ne h _ _

theorem handleReport_ends {status : WaitStatus} (h : status.ends = true) :
    ∃ x : ProcessExit, x.endTimeUs = view.now ∧ (b.handleReport view pid status).calls = [.processExit pid x] ∧
      (b.handleReport view pid status).backend.procs = Function.update b.procs pid none := by
  have hprocs : ∀ code, ((b.track pid (b.entry pid)).handleExited view pid code).backend.procs =
      Function.update b.procs pid none := fun code => by
    simp only [handleExited, untrack, track, Function.update_idem]
  cases status with
  | exited code => exact ⟨_, rfl, rfl, hprocs code⟩
  | signaled sig => exact ⟨_, rfl, rfl, hprocs (-sig)⟩
  | stopped stop => cases h

theorem handleReport_fork {child : Int} (h : child ≠ 0) (hne : child ≠ pid) (cwd cmdline : Str) :
    (∃ rec : ProcessRecord, rec.pid = child ∧ rec.ppid = pid ∧
      (b.handleReport view pid (.stopped (.fork child cwd cmdline))).calls = [.processStart rec]) ∧
    (∃ ps : ProcessState, ps.ppid = pid ∧
      (b.handleReport view pid (.stopped (.fork child cwd cmdline))).backend.procs child = some ps) ∧
    (b.handleReport view pid (.stopped (.fork child cwd cmdline))).backend.procs pid = some (b.entry pid) ∧
    ∀ q, q ≠ pid → q ≠ child →
      (b.handleReport view pid (.stopped (.fork child cwd cmdline))).backend.procs q = b.procs q := by
  simp only [handleReport, handleForkEvent, h, if_false]
  refine ⟨⟨_, rfl, rfl, rfl⟩, ⟨_, ?_, track_self _ _ _⟩, ?_, fun q hq hc => ?_⟩
  · simp only [forkedEntry]
    split
    · rfl
    · split <;> rfl
  · rw [track_of_ne _ _ _ hne.symm, track_self]
  · rw [track_of_ne _ _ _ hc, track_of_ne _ _ _ hq]

private theorem handleSyscallStop_frame (ps : ProcessState) : (handleSyscallStop view pid ps).1.ppid = ps.ppid ∧
    ∀ c ∈ (handleSyscallStop view pid ps).2, c.AccessOf pid := by
  have hnone : ∀ c ∈ ([] : List SessionCall), c.AccessOf pid := fun c hc => by cases hc
  have hexit : ∀ rax, (recordExit view pid { ps with scPhase := .entryNext } rax).1.ppid = ps.ppid := fun rax => by
    rw [(recordExit_records view pid { ps with scPhase := .entryNext } rax).frame]
  simp only [handleSyscallStop]
  split
  · exact ⟨rfl, hnone⟩
  · split
    · exact ⟨rfl, hnone⟩
    · split
      · exact ⟨rfl, hnone⟩
      · exact ⟨hexit _, (recordExit_records view pid { ps with scPhase := .entryNext } _).accesses⟩

private theorem handleSeccompStop_ppid (ps : ProcessState) : (handleSeccompStop view ps).1.ppid = ps.ppid := by
  simp only [handleSeccompStop]
  split
  · rfl
  · split <;> rfl

theorem handleOwnStop_ppid (ps : ProcessState) (stop : Stop) :
    (b.handleOwnStop view pid ps stop).1.1.ppid = ps.ppid := by
  cases stop with
  | seccomp => exact handleSeccompStop_ppid view ps
  | syscall => exact (handleSyscallStop_frame view pid ps).1
  | signal sig =>
    simp only [handleOwnStop]
    split <;> rfl
  | _ => rfl

theorem handleReport_own_eq {stop : Stop} (h : (WaitStatus.stopped stop).forks = false) :
    b.handleReport view pid (.stopped stop) =
      { backend := (b.track pid (b.entry pid)).track pid
          ((b.track pid (b.entry pid)).handleOwnStop view pid (b.entry pid) stop).1.1
        calls := ((b.track pid (b.entry pid)).handleOwnStop view pid (b.entry pid) stop).1.2
        restart := ((b.track pid (b.entry pid)).handleOwnStop view pid (b.entry pid) stop).2 } := by
  cases stop with
  | fork => cases h
  | _ => rfl

/-- A stop that is no fork event touches only the task's entry and leaves its parent. -/
theorem handleReport_own {stop : Stop} (h : (WaitStatus.stopped stop).forks = false) :
    ∃ ps : ProcessState, ps.ppid = (b.entry pid).ppid ∧
      (b.handleReport view pid (.stopped stop)).backend.procs = Function.update b.procs pid (some ps) := by
  refine ⟨_, handleOwnStop_ppid (b.track pid (b.entry pid)) view pid (b.entry pid) stop, ?_⟩
  rw [handleReport_own_eq b view pid h]
  simp only [track, Function.update_idem]

theorem forkedEntry_cachedCwd (old : Option ProcessState) (child : Int) (cwd cmdline : Str) :
    (forkedEntry old pid child cwd cmdline).cachedCwd = cwd := by
  simp only [forkedEntry]
  split
  · rfl
  · split <;> rfl

private theorem handleSyscallStop_traced (ps : ProcessState) :
    (handleSyscallStop view pid ps).1.traced = ps.traced := by
  have hexit : ∀ rax, (recordExit view pid { ps with scPhase := .entryNext } rax).1.traced = ps.traced := fun rax => by
    rw [(recordExit_records view pid { ps with scPhase := .entryNext } rax).frame]
  simp only [handleSyscallStop]
  split
  · rfl
  · split
    · rfl
    · split
      · rfl
      · exact hexit _

private theorem handleOwnStop_traced (ps : ProcessState) (stop : Stop) :
    (b.handleOwnStop view pid ps stop).1.1.traced = (ps.traced || decide (stop = .signal sigstop)) := by
  cases stop with
  | seccomp =>
    simp only [handleOwnStop, handleSeccompStop, reduceCtorEq, decide_false, Bool.or_false]
    split
    · rfl
    · split <;> rfl
  | syscall =>
    simp only [reduceCtorEq, decide_false, Bool.or_false]
    exact handleSyscallStop_traced view pid ps
  | signal sig =>
    by_cases hsig : sig = sigstop
    · cases htraced : ps.traced <;> simp [handleOwnStop, hsig, htraced]
    · simp [handleOwnStop, hsig]
  | _ => simp only [handleOwnStop, handleExecEvent, handleExitEvent, reduceCtorEq, decide_false, Bool.or_false]

theorem handleReport_own_entry {stop : Stop} (h : (WaitStatus.stopped stop).forks = false) :
    (b.handleReport view pid (.stopped stop)).backend.procs pid =
      some (b.handleOwnStop view pid (b.entry pid) stop).1.1 ∧
      (b.handleReport view pid (.stopped stop)).restart = (b.handleOwnStop view pid (b.entry pid) stop).2 := by
  have htrack : (b.track pid (b.entry pid)).handleOwnStop view pid (b.entry pid) stop =
      b.handleOwnStop view pid (b.entry pid) stop := by
    cases stop <;> rfl
  rw [handleReport_own_eq b view pid h, htrack]
  exact ⟨track_self .., rfl⟩

/-- Only a SIGSTOP sets the flag of the task. -/
theorem handleReport_traced {stop : Stop} (h : (WaitStatus.stopped stop).forks = false) :
    ∃ ps : ProcessState, (b.handleReport view pid (.stopped stop)).backend.procs pid = some ps ∧
      ps.traced = ((b.entry pid).traced || decide (stop = .signal sigstop)) := by
  rw [handleReport_own_eq b view pid h]
  exact ⟨_, track_self .., handleOwnStop_traced (b.track pid (b.entry pid)) view pid (b.entry pid) stop⟩

theorem handleReport_signal_restart (sig : Int) : (b.handleReport view pid (.stopped (.signal sig))).restart =
    b.resume (if sig = sigstop ∧ (b.entry pid).traced = false then 0 else sig) := by
  simp only [handleReport, handleOwnStop]
  split
  all_goals rfl

/-- The child of a fork event is recorded, and entered, with the cached directory of the parent if there is
one. -/
theorem handleReport_fork_child {child : Int} (h : child ≠ 0) (hne : child ≠ pid) (cwd cmdline : Str) :
    ∃ cmdline',
      (b.handleReport view pid (.stopped (.fork child cwd cmdline))).backend.procs child =
        some (forkedEntry (b.procs child) pid child
          (if (b.entry pid).cachedCwd ≠ [] then (b.entry pid).cachedCwd else cwd) cmdline') ∧
      (b.handleReport view pid (.stopped (.fork child cwd cmdline))).calls =
        [.processStart {
          pid := child, ppid := pid, cmdline := cmdline'
          cwd := if (b.entry pid).cachedCwd ≠ [] then (b.entry pid).cachedCwd else cwd, startTimeUs := view.now }] := by
  have hentry : (b.track pid (b.entry pid)).entry pid = b.entry pid := by
    simp only [entry, track_self, Option.getD_some]
  simp only [handleReport, handleForkEvent, h, if_false, hentry]
  refine ⟨_, ?_, rfl⟩
  rw [track_self, track_of_ne _ _ _ hne]

theorem handleReport_mode (status : WaitStatus) : (b.handleReport view pid status).backend.procsOnly = b.procsOnly ∧
    (b.handleReport view pid status).backend.seccompMode = b.seccompMode := by
  cases status with
  | exited code => exact ⟨rfl, rfl⟩
  | signaled sig => exact ⟨rfl, rfl⟩
  | stopped stop =>
    cases stop with
    | fork child cwd cmdline =>
      simp only [handleReport, handleForkEvent]
      split
      all_goals exact ⟨rfl, rfl⟩
    | _ => exact ⟨rfl, rfl⟩

/-- An exec deletes the task's row and starts it again with the parent of its entry. -/
theorem handleReport_exec : ∃ rec : ProcessRecord, rec.pid = pid ∧ rec.ppid = (b.entry pid).ppid ∧
    (b.handleReport view pid (.stopped .exec)).calls =
      execAccess view pid ++ [.deleteProcess pid, .processStart rec] := ⟨_, rfl, rfl, rfl⟩

theorem execAccess_accesses : ∀ c ∈ execAccess view pid, c.AccessOf pid := by
  intro c hc
  simp only [execAccess] at hc
  split at hc
  · cases hc
  · rw [List.mem_singleton.mp hc]
    rfl

/-- The calls of the other stops are accesses, and only a syscall stop makes any. -/
theorem handleReport_calls {stop : Stop} (h : (WaitStatus.stopped stop).forks = false) (hexec : stop ≠ .exec) :
    (∀ c ∈ (b.handleReport view pid (.stopped stop)).calls, c.AccessOf pid) ∧
    (b.handleReport view pid (.stopped stop)).calls =
      if stop = .syscall then (handleSyscallStop view pid (b.entry pid)).2 else [] := by
  rw [handleReport_own_eq b view pid h]
  cases stop with
  | exec => exact absurd rfl hexec
  | fork => cases h
  | syscall => exact ⟨(handleSyscallStop_frame view pid (b.entry pid)).2, rfl⟩
  | signal sig =>
    simp only [handleOwnStop, reduceCtorEq, if_false]
    split
    all_goals exact ⟨fun c hc => (by cases hc), rfl⟩
  | _ => exact ⟨fun c hc => (by cases hc), rfl⟩

end
end PtraceBackend
end Bdtrace
