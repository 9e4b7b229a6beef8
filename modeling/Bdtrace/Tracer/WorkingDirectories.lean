import Bdtrace.General.Runs
import Bdtrace.Tracer.StopOrders
import Bdtrace.Tracer.TaskFamilies

/-! Working directories in the kernel: which tasks share one, when a system call changes it, and at which
stops the tracer sees the task meanwhile. -/
namespace Bdtrace

/-- How the tracer was started, and where the kernel runs the seccomp filter. -/
structure Setup where
  procsOnly : Bool := false
  seccompMode : Bool := false
  order : StopOrder := .entryFirst

/-- The tracer sees the exit of every call that it needs. -/
def Setup.follows (setup : Setup) : Prop :=
  setup.procsOnly = false ∧ (setup.seccompMode = true → setup.order = .entryFirst)

instance (setup : Setup) : Decidable setup.follows := inferInstanceAs (Decidable (_ ∧ _))

inductive EntryStop where
  | syscall | seccomp
  deriving DecidableEq, Repr

def StopOrder.stops : StopOrder → List EntryStop
  | .entryFirst => [.syscall, .seccomp]
  | .filterFirst => [.seccomp, .syscall]

/-- What a system call other than a fork does. -/
inductive Outcome where
  | returns (ret : BitVec 64)
  | moves (dir : Str)
  | execs

namespace Regs

/-- The calls that can change the working directory. -/
def movesDir (regs : Regs) : Bool :=
  decide (regs.origRax = sysChdir ∧ regs.rdi ≠ 0) || decide (regs.origRax = sysFchdir)

def execs (regs : Regs) : Bool := decide (regs.origRax = sysExecve) || decide (regs.origRax = sysExecveat)

end Regs

/-- Where a task is: before its first stop, on its way back from the clone that made it, in user mode, at
the entry of a call with the stops that may still come, at a fork or exec event, past a call that was made
in the directory `before`, or about to die. -/
inductive Place where
  | born
  | cloned
  | user
  | entering (regs : Regs) (due : List EntryStop)
  | forked (regs : Regs) (c : Nat)
  | execed (regs : Regs)
  | returning (regs : Regs) (ret : BitVec 64) (before : Str)
  | dying
  deriving DecidableEq, Repr

/-- The entry stops that will be reported. A syscall stop is reported only to a task restarted with
PTRACE_SYSCALL, and a seccomp stop only where the filter traps. -/
def dueStops (seccompMode : Bool) (restart : Restart) (regs : Regs) : List EntryStop → List EntryStop
  | [] => []
  | .syscall :: due => if restart = .syscall then .syscall :: due else dueStops seccompMode restart regs due
  | .seccomp :: due => if seccompMode && regs.trapped then .seccomp :: due else dueStops seccompMode restart regs due

namespace Place
variable (seccompMode : Bool) (restart : Restart)

def enter (order : StopOrder) (regs : Regs) : Place → Option Place
  | .user | .cloned => some (.entering regs order.stops)
  | _ => none

/-- The call itself, once its entry stops are over; `dir` is the task's directory. -/
def effect (dir : Str) (o : Outcome) : Place → Option Place
  | .entering regs due =>
    if dueStops seccompMode restart regs due ≠ [] then none
    else
      match o with
      | .returns ret => some (.returning regs ret dir)
      | .moves _ => if regs.movesDir then some (.returning regs 0 dir) else none
      | .execs => if regs.execs then some (.execed regs) else none
  | _ => none

def fork (c : Nat) : Place → Option Place
  | .entering regs due =>
    if dueStops seccompMode restart regs due = [] ∧ regs.forks then some (.forked regs c) else none
  | _ => none

def forkReported (c : Nat) (ret : BitVec 64) (dir : Str) : Place → Option Place
  | .forked regs d => if d = c then some (.returning regs ret dir) else none
  | _ => none

/-- Back to user mode without an exit stop. -/
def leave : Place → Option Place
  | .returning .. => if restart = .cont then some .user else none
  | _ => none

/-- A stop at which PTRACE_GETREGS shows `seen`; it fails when the task was killed meanwhile. -/
def showing (seen : Option Regs) (shows : Regs → Bool) (p : Place) : Option Place :=
  match seen with
  | none => some .dying
  | some regs => if shows regs then some p else none

/-- The other stops, and where they leave the task. -/
def stopped (dir : Str) (seen : Option Regs) : Stop → Place → Option Place
  | .exit _, _ => some .dying
  | .signal _, .born | .signal _, .cloned => some .cloned
  | .signal _, .user | .sigtrap, .user => some .user
  | .exec, .execed regs => some (.returning regs 0 dir)
  | .syscall, .cloned => if restart = .syscall then showing seen (fun regs => regs.rax = 0) .user else none
  | .syscall, .entering regs due =>
    match dueStops seccompMode restart regs due with
    | .syscall :: due => showing seen (fun regs' => regs' = regs.atEntry) (.entering regs due)
    | _ => none
  | .seccomp, .entering regs due =>
    match dueStops seccompMode restart regs due with
    | .seccomp :: due => showing seen (fun regs' => regs' = regs.atEntry) (.entering regs due)
    | _ => none
  | .syscall, .returning regs ret _ =>
    if restart = .syscall then showing seen (fun regs' => regs' = { regs with rax := ret }) .user else none
  | _, _ => none

end Place

/-- A traced run with the tasks that reported, the place of each task, what was asked at its last restart,
and its directory: tasks with one `fs` share it. Of a task that is `astray` the tracer has missed a change of the
directory, and a task that is `mistaken` is traced with the entry of another one. -/
structure CwdRun where
  tracing : Tracing
  seen : Finset Nat := ∅
  astray : Finset Nat := ∅
  mistaken : Finset Nat := ∅
  place : Nat → Place := fun t => if t = 0 then .cloned else .born
  restart : Nat → Restart
  fs : Nat → Nat := fun _ => 0
  dirs : Nat → Str

/-- A step of a task inside the kernel, or an event of the family; a task shares the directory of its
parent when it is cloned with CLONE_FS. -/
inductive CwdEvent where
  | enter (t : Nat) (regs : Regs)
  | effect (t : Nat) (o : Outcome)
  | leave (t : Nat)
  | task (shares : Bool) (e : TaskEvent)

namespace CwdRun

def dir (r : CwdRun) (t : Nat) : Str := r.dirs (r.fs t)

/-- Where the kernel looks up the relative path of the task's call: for a chdir that has taken effect, the
directory before. -/
def lookupDir (r : CwdRun) (t : Nat) : Str :=
  match r.place t with
  | .returning regs _ before => if regs.movesDir then before else r.dir t
  | _ => r.dir t

def placed (r : CwdRun) : Option (Nat × Place) → CwdRun
  | some (t, p) => { r with place := Function.update r.place t p }
  | none => r

/-- `/proc` shows a stopped task's directory. -/
def ShowsDirs (r : CwdRun) : TaskEvent → Prop
  | .forkEvent t c cwd _ view => view.cwd = r.dir t ∧ (c ∉ r.tracing.world.ended → cwd = r.dir c)
  | .report t (.stopped _) view => view.cwd = r.dir t
  | _ => True

instance (r : CwdRun) : (e : TaskEvent) → Decidable (r.ShowsDirs e)
  | .forkEvent t c cwd _ view =>
    inferInstanceAs (Decidable (view.cwd = r.dir t ∧ (c ∉ r.tracing.world.ended → cwd = r.dir c)))
  | .report t (.stopped _) view => inferInstanceAs (Decidable (view.cwd = r.dir t))
  | .report _ (.exited _) _ | .report _ (.signaled _) _ | .spawn _ | .vanish _ => inferInstanceAs (Decidable True)

end CwdRun

namespace Family
variable (F : Family) (setup : Setup)

def startDirs (view : TraceeView) : CwdRun where
  tracing := F.start setup.procsOnly setup.seccompMode view
  restart t := if t = 0 then resumeRequest setup.procsOnly setup.seccompMode else .cont
  dirs _ := view.cwd

/-- The task that an event moves, and where to; `none` when the event cannot happen. -/
def nextPlace (r : CwdRun) : CwdEvent → Option (Nat × Place)
  | .enter t regs => ((r.place t).enter setup.order regs).map fun p => (t, p)
  | .effect t o => ((r.place t).effect setup.seccompMode (r.restart t) (r.dir t) o).map fun p => (t, p)
  | .leave t => ((r.place t).leave (r.restart t)).map fun p => (t, p)
  | .task _ (.spawn c) =>
    ((r.place (F.parent c)).fork setup.seccompMode (r.restart (F.parent c)) c).map fun p => (F.parent c, p)
  | .task _ (.forkEvent t c ..) =>
    ((r.place t).forkReported c (BitVec.ofInt 64 (F.pid c)) (r.dir t)).map fun p => (t, p)
  | .task _ (.report t (.stopped stop) view) =>
    ((r.place t).stopped setup.seccompMode (r.restart t) (r.dir t) view.regs stop).map fun p => (t, p)
  | .task _ (.report t _ _) | .task _ (.vanish t) => some (t, .dying)

/-- How the tracer restarts the reporting task. -/
def nextRestart (b : PtraceBackend) (restart : Nat → Restart) : TaskEvent → Nat → Restart
  | .forkEvent t c cwd cmdline view =>
    Function.update restart t
      (((b.handleReport view (F.pid t) (.stopped (.fork (F.pid c) cwd cmdline))).restart.map (·.1)).getD .cont)
  | .report t status view =>
    Function.update restart t (((b.handleReport view (F.pid t) status).restart.map (·.1)).getD .cont)
  | .spawn _ | .vanish _ => restart

/-- The new task of a spawn has the directory of its parent. -/
def inherit (r : CwdRun) (shares : Bool) : TaskEvent → CwdRun
  | .spawn c =>
    if shares then { r with fs := Function.update r.fs c (r.fs (F.parent c)) }
    else { r with fs := Function.update r.fs c c, dirs := Function.update r.dirs c (r.dir (F.parent c)) }
  | _ => r

/-- The tracer sees a chdir or fchdir of the task itself, and no other task's, after its fork event. -/
def notices (r : CwdRun) (t u : Nat) : Prop := u = t ∧ setup.follows ∧ t ∈ r.tracing.world.reported

instance (r : CwdRun) (t u : Nat) : Decidable (notices setup r t u) := inferInstanceAs (Decidable (_ ∧ _ ∧ _))

/-- The stops at which the tracer reads the directory anew: an exec event, and the exit of a call that moves
the task. -/
def refreshes (r : CwdRun) (t : Nat) : Stop → Bool
  | .exec => true
  | .syscall =>
    match r.place t with
    | .returning regs ret _ => decide setup.follows && regs.movesDir && decide (0 ≤ ret.toInt)
    | _ => false
  | _ => false

/-- The tasks that are astray after an event. A child goes astray with its parent at its fork event. -/
def strays (r : CwdRun) : CwdEvent → Finset Nat
  | .effect t (.moves _) =>
    r.astray ∪ r.tracing.world.spawned.filter fun u => r.fs u = r.fs t ∧ ¬notices setup r t u
  | .task _ (.forkEvent t c ..) => if t ∈ r.astray ∪ r.mistaken then insert c r.astray else r.astray
  | .task _ (.report t (.stopped stop) _) =>
    if t ∈ r.tracing.world.reported ∧ refreshes setup r t stop then r.astray.erase t else r.astray
  | _ => r.astray

/-- The tasks that an event mistakes for another owner of their pid: a first report and a fork event find the entry
of an earlier owner, unless the fork event recognises it by its parent, or a fork event comes after a later owner of
the child's pid has reported. -/
def mistakes (r : CwdRun) (e : TaskEvent) : Finset Nat :=
  (e.reporter.toFinset.filter fun t =>
    t ∉ r.tracing.world.reported ∧ t ∉ r.seen ∧ (r.tracing.backend.procs (F.pid t)).isSome) ∪
  (e.forked.toFinset.filter fun c => c ∉ r.seen ∧ ∃ ps ∈ r.tracing.backend.procs (F.pid c), ps.ppid = 0) ∪
  ((r.seen ∪ r.tracing.world.reported).filter fun d => ∃ c ∈ e.forked, F.pid d = F.pid c ∧ c < d)

/-- All the tasks that share the directory of the task have another one. -/
def relocated (r : CwdRun) (t : Nat) (dir : Str) : CwdRun :=
  { r with dirs := Function.update r.dirs (r.fs t) dir, astray := strays setup r (.effect t (.moves dir)) }

def cwdStep (r : CwdRun) : CwdEvent → CwdRun
  | .effect t (.moves dir) => relocated setup (r.placed (F.nextPlace setup r (.effect t (.moves dir)))) t dir
  | .task shares e =>
    { (F.inherit r shares e).placed (F.nextPlace setup r (.task shares e)) with
      tracing := F.step r.tracing e
      seen := r.seen ∪ e.reporter.toFinset
      astray := strays setup r (.task shares e)
      mistaken := r.mistaken ∪ F.mistakes r e
      restart := F.nextRestart r.tracing.backend r.restart e }
  | e => r.placed (F.nextPlace setup r e)

/-- The kernel's rules. -/
def CwdPossible (r : CwdRun) (e : CwdEvent) : Prop :=
  (F.nextPlace setup r e).isSome ∧
    match e with
    | .enter t _ | .effect t _ | .leave t => r.tracing.world.Active t
    | .task _ e => F.Possible r.tracing.world e ∧ r.ShowsDirs e

instance (r : CwdRun) : (e : CwdEvent) → Decidable (F.CwdPossible setup r e)
  | .enter t regs =>
    inferInstanceAs (Decidable ((F.nextPlace setup r (.enter t regs)).isSome ∧ r.tracing.world.Active t))
  | .effect t o => inferInstanceAs (Decidable ((F.nextPlace setup r (.effect t o)).isSome ∧ r.tracing.world.Active t))
  | .leave t => inferInstanceAs (Decidable ((F.nextPlace setup r (.leave t)).isSome ∧ r.tracing.world.Active t))
  | .task shares e => inferInstanceAs (Decidable ((F.nextPlace setup r (.task shares e)).isSome ∧
      F.Possible r.tracing.world e ∧ r.ShowsDirs e))

end Family
end Bdtrace
