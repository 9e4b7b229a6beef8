import Bdtrace.General.Runs
import Bdtrace.Tracer.RestartRequests

/-! Runs in which the kernel loses restarts, and which signals reach the tasks then. -/
namespace Bdtrace

abbrev StopStatus := { status : Nat // wifstopped status }
abbrev EndStatus := { status : Nat // ¬wifstopped status }

/-- A task: running, in a stop that is not yet reported, in one that is, or with its death not yet reported. -/
inductive Phase where
  | running
  | stopped (status : StopStatus)
  | held
  | dying (status : EndStatus)
  | gone
  deriving DecidableEq, Repr

def Phase.lives : Phase → Bool
  | .running | .stopped _ | .held => true
  | .dying _ | .gone => false

/-- A task with the signals that the tracer chose to re-inject, and those that reached it. -/
structure Tracee where
  phase : Phase := .gone
  chosen : List Int := []
  delivered : List Int := []
  deriving DecidableEq, Repr

/-- What tasks do by themselves. -/
inductive Move where
  | stops (pid : Int) (status : StopStatus)
  | dies (pid : Int) (status : EndStatus)
  | begins (pid : Int)

/-- The tasks, and how many requests and probes there were. -/
structure Tracees where
  task : Int → Tracee := fun _ => {}
  clock : Nat := 0

/-- What happens before each request or probe takes effect, and which requests the kernel loses. -/
structure Fates where
  moves : Nat → List Move := fun _ => []
  lost : Nat → Bool := fun _ => false

/-- The signal of a restart, 0 for none. -/
def signalsOf (sig : Int) : List Int := if sig = 0 then [] else [sig]

namespace Tracees

def put (k : Tracees) (pid : Int) (t : Tracee) : Tracees := { k with task := Function.update k.task pid t }

def move (k : Tracees) : Move → Tracees
  | .stops pid status =>
    if (k.task pid).phase = .running then k.put pid { k.task pid with phase := .stopped status } else k
  | .dies pid status =>
    if (k.task pid).phase.lives then k.put pid { k.task pid with phase := .dying status } else k
  | .begins pid => if (k.task pid).phase = .gone then k.put pid { phase := .running } else k

/-- Time passes. -/
def pass (f : Fates) (k : Tracees) : Tracees := { (f.moves k.clock).foldl move k with clock := k.clock + 1 }

/-- A restart that is not lost: a task that is not stopped answers it with ESRCH. -/
def restart (k : Tracees) (pid sig : Int) : Tracees :=
  match (k.task pid).phase with
  | .stopped _ | .held =>
    k.put pid { k.task pid with phase := .running, delivered := (k.task pid).delivered ++ signalsOf sig }
  | _ => k

def probe (k : Tracees) (pid : Int) : Probe :=
  match (k.task pid).phase with
  | .stopped _ => ⟨"T(tracingstop)".toList, true⟩
  | .held => ⟨"T(tracingstop)".toList, false⟩
  | .running => ⟨"S(sleeping)".toList, false⟩
  | .dying _ => ⟨"Z(zombie)".toList, true⟩
  | .gone => ⟨[], false⟩

end Tracees

/-- The kernel with these fates. -/
def lossyKernel (f : Fates) : Kernel Tracees where
  look pid k := ((k.pass f).probe pid, k.pass f)
  send req k := if f.lost k.clock then k.pass f else (k.pass f).restart req.pid req.sig

/-- The tracer with its tasks. -/
structure LossyRun where
  backend : PtraceBackend
  sending : Sending Tracees

/-- An iteration of the event loop: `waitpid` reports a task, or the watchdog interrupts it. -/
inductive LoopStep where
  | report (pid : Int) (view : TraceeView) (data : StopData)
  | watchdog (tracked : List Int)

section Steps
variable (f : Fates) (dropNth : Int)

/-- The recovery scan of `check_stall`, over the tracked pids in their order. -/
def checkStall (b : PtraceBackend) (tracked : List Int) (s : Sending Tracees) : Sending Tracees :=
  (tracked.take 256).foldl (fun s pid =>
    let seen := (lossyKernel f).look pid s.kernel
    let s := { s with kernel := seen.2 }
    if seen.1.tracing then kickIfStuck (lossyKernel f) b pid 0 s else s) s

/-- The signal that the tracer resumes the task with, 0 for none. -/
def PtraceBackend.chosenSignal (b : PtraceBackend) (view : TraceeView) (data : StopData) (pid : Int) (status : Nat) :
    Int :=
  match (b.handleReport view pid (.stopped (decodeStop status data))).restart with
  | some (_, sig) => sig
  | none => 0

namespace LossyRun

/-- `start`: the root is stopped, and resumed. -/
def start (procsOnly seccompMode : Bool) (tracer root : Int) (view : TraceeView) : LossyRun :=
  let b := (PtraceBackend.start procsOnly seccompMode tracer root view).backend
  { backend := b
    sending := b.sendResume (lossyKernel f) dropNth root 0 { kernel := ({} : Tracees).put root { phase := .held } } }

def step (r : LossyRun) : LoopStep → LossyRun
  | .report pid view data =>
    let k := r.sending.kernel.pass f
    match (k.task pid).phase with
    | .stopped status =>
      -- the report is taken, and the tracer decides on the signal
      let t : Tracee := { k.task pid with
        phase := .held, chosen := (k.task pid).chosen ++ signalsOf (r.backend.chosenSignal view data pid status) }
      let handled := r.backend.iterate (lossyKernel f) dropNth view data pid status
        { r.sending with kernel := k.put pid t }
      { backend := handled.1.backend, sending := handled.2 }
    | .dying status =>
      let k := k.put pid { k.task pid with phase := .gone }
      let handled := r.backend.iterate (lossyKernel f) dropNth view data pid status { r.sending with kernel := k }
      { backend := handled.1.backend, sending := handled.2 }
    | _ => { r with sending := { r.sending with kernel := k } }
  | .watchdog tracked => { r with sending := checkStall f r.backend tracked r.sending }

end LossyRun
end Steps

/-- A task that runs, or has run up to its next stop, got each signal that was chosen for it once, in order; one that
is held may lack the last. -/
def Tracee.Kept (t : Tracee) : Prop :=
  match t.phase with
  | .running | .stopped _ => t.delivered = t.chosen
  | .held => t.chosen = t.delivered ∨ ∃ sig, t.chosen = t.delivered ++ [sig]
  | .dying _ | .gone => t.delivered <+: t.chosen

/-- Signals reach their tasks exactly once. -/
def LossyRun.SignalsReach (r : LossyRun) : Prop := ∀ pid, (r.sending.kernel.task pid).Kept

/-- The watchdog finds no held task that still lacks a signal. -/
def LossyRun.NoneLacks (r : LossyRun) : LoopStep → Prop
  | .report .. => True
  | .watchdog tracked => ∀ pid ∈ tracked.take 256, (r.sending.kernel.task pid).phase = .held →
      (r.sending.kernel.task pid).chosen = (r.sending.kernel.task pid).delivered

instance (r : LossyRun) (e : LoopStep) : Decidable (r.NoneLacks e) :=
  match e with
  | .report .. => inferInstanceAs (Decidable True)
  | .watchdog tracked => inferInstanceAs (Decidable (∀ pid ∈ tracked.take 256, _ → _))

end Bdtrace
