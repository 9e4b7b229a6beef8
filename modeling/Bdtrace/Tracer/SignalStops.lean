import Bdtrace.General.Runs
import Bdtrace.Tracer.TaskFamilies

/-! Signals: with which signal each signal-delivery stop of a task is resumed. -/
namespace Bdtrace

/-- `WSTOPSIG`. -/
def stopSignal (status : Nat) : Nat := status / 256 % 256

/-- The ptrace event in the status of a stop, 0 for none. -/
def stopEvent (status : Nat) : Nat := status / 65536 % 256

/-- What ptrace and `/proc` tell of a stop besides its status. -/
structure StopData where
  child : Int := 0
  cwd : Str := []
  cmdline : Str := []
  usage : ResourceUsage := {}

/-- The tests that `run_event_loop` makes on the status of a stop, up to the last two. -/
def decodeStop (status : Nat) (data : StopData) : Stop :=
  let sig := stopSignal status
  let event := stopEvent status
  -- PTRACE_EVENT_FORK, PTRACE_EVENT_VFORK, PTRACE_EVENT_CLONE
  if event = 1 ∨ event = 2 ∨ event = 3 then .fork data.child data.cwd data.cmdline
  else if event = 4 then .exec
  else if event = 6 then .exit data.usage
  else if event = 7 then .seccomp
  -- SIGTRAP | 0x80
  else if sig = 5 ||| 0x80 then .syscall
  else if sig = 5 then .sigtrap
  else .signal sig

/-- The status of a stop that only shows a signal. -/
def signalStatus (sig : Nat) : Nat := sig * 256 + 0x7f

theorem decodeStop_signalStatus {sig : Nat} (h : sig ≤ 64) (data : StopData) :
    decodeStop (signalStatus sig) data = if sig = 5 then .sigtrap else .signal sig := by
  have hsig : stopSignal (signalStatus sig) = sig := by
    simp only [stopSignal, signalStatus]
    omega
  have hevent : stopEvent (signalStatus sig) = 0 := by
    simp only [stopEvent, signalStatus]
    omega
  have hsyscall : sig ≠ 5 ||| 0x80 := by
    change sig ≠ 133
    omega
  simp only [decodeStop, hsig, hevent, hsyscall, if_false]
  rfl

def TaskEvent.showsSignal : TaskEvent → Bool
  | .report _ (.stopped (.signal _)) _ => true
  | _ => false

/-- The task that stops with SIGSTOP. -/
def TaskEvent.sigstopped : TaskEvent → Option Nat
  | .report t (.stopped (.signal sig)) _ => if sig = sigstop then some t else none
  | _ => none

/-- The kernel's initial SIGSTOP of an attached task, the delivery of a genuine signal, the stop of a
task with its stopped group, and the events that show no signal. -/
inductive SignalEvent where
  | attachStop (t : Nat) (view : TraceeView)
  | signalStop (t sig : Nat) (view : TraceeView)
  | groupStop (t sig : Nat) (view : TraceeView)
  | other (e : TaskEvent)

namespace SignalEvent

def task : SignalEvent → TaskEvent
  | .attachStop t view => .report t (.stopped (decodeStop (signalStatus 19) {})) view
  | .signalStop t sig view | .groupStop t sig view => .report t (.stopped (decodeStop (signalStatus sig) {})) view
  | .other e => e

/-- The task and the signal of a signal-delivery stop. -/
def delivery : SignalEvent → Option (Nat × Nat)
  | .attachStop t _ => some (t, 19)
  | .signalStop t sig _ => some (t, sig)
  | .groupStop .. | .other _ => none

/-- The signal that a transparent tracer resumes a signal-delivery stop with. -/
def due : SignalEvent → Option Int
  | .attachStop .. => some 0
  | .signalStop _ sig _ => some sig
  | .groupStop .. | .other _ => none

def attaching : SignalEvent → Option Nat
  | .attachStop t _ => some t
  | _ => none

/-- A genuine SIGSTOP of the root. -/
def stopsRoot : SignalEvent → Bool
  | .signalStop 0 19 _ => true
  | _ => false

end SignalEvent

/-- A traced run with the tasks that reported, those whose initial SIGSTOP was consumed, which `start`
does for the root, those that stopped with SIGSTOP in the event loop, and those whose flag may be another task's. -/
structure SignalRun where
  tracing : Tracing
  seen : Finset Nat := ∅
  attached : Finset Nat := {0}
  stopped : Finset Nat := ∅
  misflagged : Finset Nat := ∅

namespace Family
variable (F : Family)

/-- The signal that the tracer resumes the reporting task with. -/
def restartSignal (b : PtraceBackend) : TaskEvent → Option Int
  | .forkEvent t c cwd cmdline view =>
    (b.handleReport view (F.pid t) (.stopped (.fork (F.pid c) cwd cmdline))).restart.map (·.2)
  | .report t status view => (b.handleReport view (F.pid t) status).restart.map (·.2)
  | .spawn _ | .vanish _ => none

def startSignals (procsOnly seccompMode : Bool) (view : TraceeView) : SignalRun :=
  { tracing := F.start procsOnly seccompMode view }

/-- The tasks that an event gives the flag of another owner of their pid: a first report finds an entry with the
flag set or a parent, a fork event one with the flag set that it does not recognise as left over, or the fork event
comes after a later owner of the child's pid has reported. -/
def misflags (r : SignalRun) (e : TaskEvent) : Finset Nat :=
  (e.reporter.toFinset.filter fun t => t ∉ r.tracing.world.reported ∧ t ∉ r.seen ∧
    ∃ ps ∈ r.tracing.backend.procs (F.pid t), ps.traced = true ∨ ps.ppid ≠ 0) ∪
  (e.forked.toFinset.filter fun c => c ∉ r.seen ∧
    ∃ ps ∈ r.tracing.backend.procs (F.pid c), ps.traced = true ∧ ps.ppid = 0) ∪
  ((r.seen ∪ r.tracing.world.reported).filter fun d => ∃ c ∈ e.forked, F.pid d = F.pid c ∧ c < d)

def signalStep (r : SignalRun) (e : SignalEvent) : SignalRun where
  tracing := F.step r.tracing e.task
  seen := r.seen ∪ e.task.reporter.toFinset
  attached := r.attached ∪ e.attaching.toFinset
  stopped := r.stopped ∪ e.task.sigstopped.toFinset
  misflagged := r.misflagged ∪ F.misflags r e.task

/-- The kernel's rules for signals: a task has one initial SIGSTOP, which comes before any SIGSTOP sent
to it, and a group stops by SIGSTOP, SIGTSTP, SIGTTIN or SIGTTOU. -/
def SignalRule (r : SignalRun) : SignalEvent → Prop
  | .attachStop t _ => t ∉ r.attached
  | .signalStop t sig _ => 1 ≤ sig ∧ sig ≤ 64 ∧ (sig = 19 → t ∈ r.attached)
  | .groupStop _ sig _ => sig ∈ [19, 20, 21, 22]
  | .other e => e.showsSignal = false

def SignalPossible (r : SignalRun) (e : SignalEvent) : Prop := F.Possible r.tracing.world e.task ∧ SignalRule r e

instance (r : SignalRun) : (e : SignalEvent) → Decidable (SignalRule r e)
  | .attachStop t _ => inferInstanceAs (Decidable (t ∉ r.attached))
  | .signalStop t sig _ => inferInstanceAs (Decidable (1 ≤ sig ∧ sig ≤ 64 ∧ (sig = 19 → t ∈ r.attached)))
  | .groupStop _ sig _ => inferInstanceAs (Decidable (sig ∈ [19, 20, 21, 22]))
  | .other e => inferInstanceAs (Decidable (e.showsSignal = false))

instance (r : SignalRun) (e : SignalEvent) : Decidable (F.SignalPossible r e) := inferInstanceAs (Decidable (_ ∧ _))

theorem sigstopped_reports {e : TaskEvent} {t : Nat} (h : e.sigstopped = some t) : e.reporter = some t := by
  cases e with
  | report u status view =>
    cases status with
    | stopped stop =>
      cases stop with
      | signal sig =>
        simp only [TaskEvent.sigstopped] at h
        split at h
        · exact h
        · cases h
      | _ => cases h
    | _ => cases h
  | _ => cases h

theorem attaching_sigstopped {e : SignalEvent} {t : Nat} (h : e.attaching = some t) : e.task.sigstopped = some t := by
  cases e with
  | attachStop u view => exact h
  | _ => cases h

variable {F}

@[simp] theorem signalStep_backend (r : SignalRun) (e : SignalEvent) :
    (F.signalStep r e).tracing.backend = (F.handle r.tracing.backend e.task).1 := rfl

@[simp] theorem signalStep_world (r : SignalRun) (e : SignalEvent) :
    (F.signalStep r e).tracing.world = r.tracing.world.step e.task := rfl

section
variable {r : SignalRun} {e : SignalEvent} (h : F.Sane r.tracing.world) (hp : F.Possible r.tracing.world e.task)
include h hp

/-- The entry of a task after its report: only a SIGSTOP sets the flag, and the parent stays. -/
theorem entry_reporter {t : Nat} (ht : e.task.reporter = some t) (hactive : (F.signalStep r e).tracing.world.Active t) :
    ∃ ps, (F.signalStep r e).tracing.backend.procs (F.pid t) = some ps ∧
      ps.traced = ((r.tracing.backend.entry (F.pid t)).traced || decide (e.task.sigstopped = some t)) ∧
      ps.ppid = (r.tracing.backend.entry (F.pid t)).ppid := by
  cases he : e.task with
  | forkEvent u c cwd cmdline view =>
    obtain rfl : u = t := by simpa [he, TaskEvent.reporter] using ht
    rw [he] at hp
    obtain ⟨-, -, hself, -⟩ := r.tracing.backend.handleReport_fork view (F.pid u) (F.pid_range c).1.ne' (h.pid_ne hp)
      cwd cmdline
    refine ⟨r.tracing.backend.entry (F.pid u), ?_, by simp [TaskEvent.sigstopped], rfl⟩
    simp only [signalStep_backend, he, handle]
    exact hself
  | report u status view =>
    obtain rfl : u = t := by simpa [he, TaskEvent.reporter] using ht
    rw [he] at hp
    cases hends : status.ends with
    | true =>
      refine absurd ?_ hactive.2
      simp [he, TaskWorld.step, hends]
    | false =>
      cases status with
      | stopped stop =>
        obtain ⟨ps, hps, htraced⟩ := r.tracing.backend.handleReport_traced view (F.pid u) hp.2
        obtain ⟨ps', hppid, hprocs⟩ := r.tracing.backend.handleReport_own view (F.pid u) hp.2
        rw [hprocs, Function.update_self] at hps
        obtain rfl := Option.some.inj hps
        refine ⟨ps', ?_, ?_, hppid⟩
        · simp only [signalStep_backend, he, handle, hprocs, Function.update_self]
        · rw [htraced]
          cases stop <;> simp [TaskEvent.sigstopped]
      | exited code => cases hends
      | signaled sig => cases hends
  | _ => simp [he, TaskEvent.reporter] at ht

theorem entry_forked {t c : Nat} {cwd cmdline : Str} {view : TraceeView}
    (he : e.task = .forkEvent t c cwd cmdline view) :
    ∃ cwd' cmdline', (F.signalStep r e).tracing.backend.procs (F.pid c) = some (PtraceBackend.forkedEntry
      (r.tracing.backend.procs (F.pid c)) (F.pid t) (F.pid c) cwd' cmdline') := by
  rw [he] at hp
  obtain ⟨cmdline', hchild, -⟩ := r.tracing.backend.handleReport_fork_child view (F.pid t) (F.pid_range c).1.ne'
    (h.pid_ne hp) cwd cmdline
  simp only [signalStep_backend, he, handle]
  exact ⟨_, cmdline', hchild⟩

end

def firstChild : List SignalEvent :=
  [.other (.spawn 1), .attachStop 1 {}, .other (.forkEvent 0 1 [] [] {})]

end Family
end Bdtrace
