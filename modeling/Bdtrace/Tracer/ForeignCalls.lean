import Bdtrace.Tracer.FastPath
import Bdtrace.Tracer.PathArguments

/-! 32-bit tasks under an x86_64 tracer: the seccomp filter allows all their calls, and the classic path takes their
numbers for its own. -/
namespace Bdtrace

/-- AUDIT_ARCH_I386. -/
def auditArchI386 : BitVec 32 := 0x40000003

/-- The registers of an i386 call that the tracer looks at; the task itself has no `r10`. -/
structure I386Regs where
  origEax : BitVec 32
  edi : BitVec 32 := 0
  esi : BitVec 32 := 0
  edx : BitVec 32 := 0
  r10 : BitVec 64 := 0
  deriving DecidableEq, Repr

/-- How PTRACE_GETREGS shows them to a 64-bit tracer, with the result so far. -/
def I386Regs.shown (regs : I386Regs) (rax : BitVec 64) : Regs where
  origRax := regs.origEax.setWidth 64
  rdi := regs.edi.setWidth 64
  rsi := regs.esi.setWidth 64
  rdx := regs.edx.setWidth 64
  r10 := regs.r10
  rax := rax

def I386Regs.seccompData (regs : I386Regs) : SeccompData := ⟨regs.origEax, auditArchI386⟩

/-- A stop that is neither a syscall stop nor one of the filter. -/
abbrev OtherStop := { stop : Stop // stop ≠ .syscall ∧ stop ≠ .seccomp }

/-- A call that ends, and what happens to the task inside it and between it and the next one. -/
structure ForeignCall where
  regs : I386Regs
  ret : BitVec 64
  entry : TraceeView := {}
  inside : List (OtherStop × TraceeView) := []
  exit : TraceeView := {}
  after : List (OtherStop × TraceeView) := []

/-- A 32-bit task until its death, which can be inside a call. `born` are the registers of the clone or execve that
made it, when it returns from that first. -/
structure ForeignHistory where
  born : Option (I386Regs × TraceeView) := none
  calls : List ForeignCall
  last : Option (I386Regs × TraceeView × List (OtherStop × TraceeView)) := none
  death : WaitStatus
  seen : TraceeView := {}
  ends : death.ends = true

/-- The calls that the task makes. -/
def ForeignHistory.registers (h : ForeignHistory) : List I386Regs := h.calls.map (·.regs) ++ (h.last.map (·.1)).toList

/-- The tracer and how it resumed the task; `inspected` are the session calls of syscall stops and seccomp stops. -/
structure ForeignRun where
  backend : PtraceBackend
  restart : Restart
  stops : Nat := 0
  calls : List SessionCall := []
  inspected : List SessionCall := []

namespace ForeignRun
variable (clock : Nat → Int) (pid : Int)

/-- The 32-bit task is running, and the tracer has these entries. -/
def start (seccompMode : Bool) (procs : Int → Option ProcessState) : ForeignRun :=
  { backend := { procs := procs, seccompMode := seccompMode }, restart := resumeRequest false seccompMode }

def report (r : ForeignRun) (view : TraceeView) (status : WaitStatus) : ForeignRun :=
  let handled := r.backend.handleReport { view with now := clock r.stops } pid status
  { backend := handled.backend
    restart := (handled.restart.map (·.1)).getD r.restart
    stops := r.stops + 1
    calls := r.calls ++ handled.calls
    inspected := if status = .stopped .syscall ∨ status = .stopped .seccomp then
      r.inspected ++ handled.calls else r.inspected }

/-- A syscall stop is reported only to a task restarted with PTRACE_SYSCALL. -/
def syscallStop (r : ForeignRun) (regs : Regs) (view : TraceeView) : ForeignRun :=
  if r.restart = .syscall then r.report clock pid { view with regs := some regs } (.stopped .syscall) else r

/-- The filter sees the call under its own architecture. -/
def enter (r : ForeignRun) (regs : I386Regs) (view : TraceeView) : ForeignRun :=
  let shown := regs.shown (BitVec.ofInt 64 (-enosys))
  let r := r.syscallStop clock pid shown view
  if r.backend.seccompMode && regs.seccompData.verdict == some seccompRetTrace then
    r.report clock pid { view with regs := some shown } (.stopped .seccomp)
  else r

def others (r : ForeignRun) (stops : List (OtherStop × TraceeView)) : ForeignRun :=
  stops.foldl (fun r s => r.report clock pid s.2 (.stopped s.1)) r

def perform (r : ForeignRun) (sc : ForeignCall) : ForeignRun :=
  let r := (r.enter clock pid sc.regs sc.entry).others clock pid sc.inside
  (r.syscallStop clock pid (sc.regs.shown sc.ret) sc.exit).others clock pid sc.after

/-- The end of the clone or execve that made the task. -/
def arrive (r : ForeignRun) : Option (I386Regs × TraceeView) → ForeignRun
  | some (regs, view) => r.syscallStop clock pid (regs.shown 0) view
  | none => r

/-- The call that the task dies in. -/
def depart (r : ForeignRun) : Option (I386Regs × TraceeView × List (OtherStop × TraceeView)) → ForeignRun
  | some (regs, view, stops) => (r.enter clock pid regs view).others clock pid stops
  | none => r

def live (r : ForeignRun) (h : ForeignHistory) : ForeignRun :=
  ((h.calls.foldl (perform clock pid) (r.arrive clock pid h.born)).depart clock pid h.last).report
    clock pid h.seen h.death

end ForeignRun

/-- What the tracer saved of a call, if anything, is not used any more. -/
structure Quiet (ps : ProcessState) : Prop where
  exitNeeded : ps.exitNeeded = false
  pending : ps.scPhase = .exitNext ∨ ps.pendingSyscall = -1

instance (ps : ProcessState) : Decidable (Quiet ps) :=
  decidable_of_iff (ps.exitNeeded = false ∧ (ps.scPhase = .exitNext ∨ ps.pendingSyscall = -1))
    ⟨fun h => ⟨h.1, h.2⟩, fun h => ⟨h.1, h.2⟩⟩

/-- Whatever the calls return and whatever else happens: in classic mode, a tracked 32-bit task that makes these calls
leads to the session calls of seccomp mode, and its syscall stops to none. -/
def Harmless (regs : List I386Regs) : Prop :=
  ∀ (clock clock' : Nat → Int) (pid : Int) (procs : Int → Option ProcessState) (ps : ProcessState),
    procs pid = some ps → Quiet ps → ∀ h : ForeignHistory, h.registers = regs →
      let classic := (ForeignRun.start false procs).live clock pid h
      let seccomp := (ForeignRun.start true procs).live clock' pid h
      untimed classic.calls = untimed seccomp.calls ∧ classic.inspected = [] ∧ seccomp.inspected = []

/-- The x86_64 tracer would inspect the exit of a call with this number and these registers. -/
def I386Regs.mistaken (regs : I386Regs) : Bool := (regs.shown 0).needed

end Bdtrace
