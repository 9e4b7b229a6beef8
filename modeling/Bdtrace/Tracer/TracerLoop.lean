import Bdtrace.General.Runs
import Bdtrace.Tracer.ProcsOnly
import Bdtrace.Tracer.RestartRequests
import Mathlib.Data.Finset.Sort

/-! The event loop around its reports: signals to the tracer itself, the drain after a request to stop, the stall
reports of the watchdog, and how the loop ends. -/
namespace Bdtrace

/-- What `signal_handler` keeps of a signal: its number, its sender and its `si_code`. -/
structure SignalInfo where
  num : Int
  sender : Int
  code : Int
  deriving DecidableEq, Repr

/-- A return of `waitpid` with the time after it. An alarm comes with the states that `/proc` shows. -/
inductive WaitResult where
  | report (r : Report) (nowUs : Int)
  | alarm (nowUs : Int) (state : Int → Str)
  | interrupted
  | noChild
  | failed

/-- What an iteration meets: the signals since the one before, the clock where a deadline is set and where it is
checked, and the result of `waitpid`. -/
structure Turn where
  fatal : Bool := false
  signals : List SignalInfo := []
  stopUs : Int := 0
  drainUs : Int := 0
  wait : WaitResult

def Turn.report (t : Turn) : Option Report :=
  match t.wait with
  | .report r _ => some r
  | _ => none

inductive Ending where
  | treeGone
  | fatalErrors
  | secondSignal
  | drainTimedOut
  | noChild
  | waitFailed
  deriving DecidableEq, Repr

/-- What the loop does besides the handling of reports; `idle` and `stalled` are the two forms of a stall report. -/
inductive LoopAct where
  | ignored (s : SignalInfo)
  | forwarded (pid sig : Int)
  | abandoned (tracked : Nat)
  | timedOut (tracked : Nat)
  | stallCleared (pid : Int)
  | idle (gapS : Int) (tracked : Nat)
  | stalled (gapS : Int) (tracked : Nat)
  deriving DecidableEq, Repr

def LoopAct.reportsStall : LoopAct → Bool
  | .idle .. | .stalled .. => true
  | _ => false

/-- The tracer in its loop; `tracked` are the keys of `procs_`. -/
structure TracerLoop where
  recorded : ReportRun
  tracked : Finset Int
  keys : ∀ pid, pid ∈ tracked ↔ (recorded.backend.procs pid).isSome
  root : Int
  running : Bool := true
  drainDeadlineUs : Int := 0
  lastEventUs : Int
  lastStallReportUs : Int := 0
  acts : List LoopAct := []
  ending : Option Ending := none

/-- The pids whose entries a report can make, change or erase. -/
def Report.pids (r : Report) : Finset Int :=
  match r.status with
  | .stopped (.fork child _ _) => {r.pid, child}
  | _ => {r.pid}

private theorem ReportRun.step_procs_of_ne (s : ReportRun) (r : Report) {q : Int} (h : q ∉ r.pids) :
    (s.step r).backend.procs q = s.backend.procs q := by
  obtain ⟨view, pid, status⟩ := r
  have hpid : q ≠ pid := by
    rintro rfl
    apply h
    rw [Report.pids]
    split <;> simp
  simp only [ReportRun.step]
  by_cases hends : status.ends = true
  · obtain ⟨x, -, -, hprocs⟩ := s.backend.handleReport_ends view pid hends
    rw [hprocs, Function.update_of_ne hpid]
  · cases status with
    | exited code => exact absurd rfl hends
    | signaled sig => exact absurd rfl hends
    | stopped stop =>
      by_cases hforks : (WaitStatus.stopped stop).forks = true
      · cases stop with
        | fork child cwd cmdline =>
          have hchild : q ≠ child := by
            rintro rfl
            exact h (by simp [Report.pids])
          simp only [PtraceBackend.handleReport, PtraceBackend.handleForkEvent]
          split
          · exact PtraceBackend.track_of_ne _ _ _ hpid
          · rw [PtraceBackend.track_of_ne _ _ _ hchild, PtraceBackend.track_of_ne _ _ _ hpid]
        | _ => cases hforks
      · obtain ⟨ps, -, hprocs⟩ := @PtraceBackend.handleReport_own s.backend view pid stop (by simpa using hforks)
        rw [hprocs, Function.update_of_ne hpid]

namespace TracerLoop

def start (procsOnly seccompMode : Bool) (tracer root : Int) (view : TraceeView) (startUs : Int) : TracerLoop where
  recorded := .start procsOnly seccompMode tracer root view
  tracked := {root}
  keys pid := by
    rw [Finset.mem_singleton]
    by_cases h : pid = root
    · subst h
      simp [ReportRun.start, PtraceBackend.start, PtraceBackend.track]
    · simp [ReportRun.start, PtraceBackend.start, PtraceBackend.track, h]
  root := root
  lastEventUs := startUs

def log (l : TracerLoop) (a : LoopAct) : TracerLoop := { l with acts := l.acts ++ [a] }

def finish (l : TracerLoop) (e : Ending) : TracerLoop := { l with ending := some e }

/-- A signal from the user or the terminal has no tracked sender. -/
def FromTracee (l : TracerLoop) (s : SignalInfo) : Prop := s.code ≤ 0 ∧ 0 < s.sender ∧ s.sender ∈ l.tracked

instance (l : TracerLoop) (s : SignalInfo) : Decidable (l.FromTracee s) := inferInstanceAs (Decidable (_ ∧ _ ∧ _))

/-- `if (g_sig_count > 0)`: of several signals, the handler keeps the last. -/
def lookAtSignals (l : TracerLoop) (t : Turn) : TracerLoop :=
  match t.signals.getLast? with
  | none => l
  | some s =>
    if l.FromTracee s then l.log (.ignored s)
    else if l.running then
      { l.log (.forwarded l.root s.num) with running := false, drainDeadlineUs := t.stopUs + 30000000 }
    else (l.log (.abandoned l.tracked.card)).finish .secondSignal

def checkDrain (l : TracerLoop) (t : Turn) : TracerLoop :=
  if l.running = false ∧ l.drainDeadlineUs ≠ 0 ∧ l.drainDeadlineUs < t.drainUs then
    (l.log (.timedOut l.tracked.card)).finish .drainTimedOut
  else l

/-- The stops that the recovery scan of `check_stall` sees among the first 256 tasks. -/
def anyPtraceStopped (l : TracerLoop) (state : Int → Str) : Bool :=
  ((l.tracked.sort (· ≤ ·)).take 256).any fun pid =>
    decide (tracingWord <:+: state pid) || (state pid).head? = some 'T' || (state pid).head? = some 't'

/-- The report part of `check_stall`. -/
def reportStall (l : TracerLoop) (nowUs : Int) (state : Int → Str) : TracerLoop :=
  let gap := nowUs - l.lastEventUs
  let gapS := int32 (gap.tdiv 1000000)
  if gap < 10000000 then l
  else if l.running = false then l
  else if l.lastStallReportUs ≠ 0 ∧ nowUs - l.lastStallReportUs < 30000000 then l
  else if (l.recorded.backend.seccompMode ∨ l.recorded.backend.procsOnly) ∧ l.anyPtraceStopped state = false then
    { l.log (.idle gapS l.tracked.card) with lastStallReportUs := nowUs }
  else { l.log (.stalled gapS l.tracked.card) with lastStallReportUs := nowUs }

/-- An event: the stall is over, and the report is handled. -/
def consume (l : TracerLoop) (r : Report) (nowUs : Int) : TracerLoop :=
  { l with
    recorded := l.recorded.step r
    tracked := (l.tracked ∪ r.pids).filter fun q => ((l.recorded.step r).backend.procs q).isSome
    keys := fun q => by
      rw [Finset.mem_filter, Finset.mem_union]
      refine ⟨And.right, fun h => ⟨?_, h⟩⟩
      by_cases hq : q ∈ r.pids
      · exact .inr hq
      · rw [l.recorded.step_procs_of_ne r hq] at h
        exact .inl ((l.keys q).mpr h)
    lastEventUs := nowUs
    lastStallReportUs := 0
    acts := if l.lastStallReportUs ≠ 0 then l.acts ++ [.stallCleared r.pid] else l.acts }

def await (l : TracerLoop) : WaitResult → TracerLoop
  | .report r nowUs => l.consume r nowUs
  | .alarm nowUs state => l.reportStall nowUs state
  | .interrupted => l
  | .noChild => l.finish .noChild
  | .failed => l.finish .waitFailed

/-- An iteration of `run_event_loop`; nothing happens after the last. -/
def step (l : TracerLoop) (t : Turn) : TracerLoop :=
  if l.ending.isSome then l
  else if l.tracked = ∅ then l.finish .treeGone
  else if t.fatal then l.finish .fatalErrors
  else
    let l := l.lookAtSignals t
    if l.ending.isSome then l
    else
      let l := l.checkDrain t
      if l.ending.isSome then l else l.await t.wait

/-- The signals passed on to the traced command. -/
def forwards (l : TracerLoop) : List (Int × Int) := l.acts.filterMap fun a =>
  match a with
  | .forwarded pid sig => some (pid, sig)
  | _ => none

end TracerLoop
end Bdtrace
