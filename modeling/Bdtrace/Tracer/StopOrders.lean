import Bdtrace.Tracer.SeccompFilter

/-! One task's system calls under the tracer: which stops the kernel reports between two
restarts, and how often the exit branch sees a call. -/
namespace Bdtrace

/-- Whether the kernel runs the seccomp filter ahead of the syscall-entry stop or after it. -/
inductive StopOrder where
  | filterFirst | entryFirst
  deriving DecidableEq, Repr

/-- The order changed in Linux 4.8. -/
def KernelVersion.stopOrder (v : KernelVersion) : StopOrder :=
  if 4 < v.major ∨ v.major = 4 ∧ 8 ≤ v.minor then .entryFirst else .filterFirst

/-- A system call that ends: its registers, what can be read at its entry, at PTRACE_EVENT_EXEC when
it replaces the image, and at its exit. -/
structure Syscall where
  regs : Regs
  ret : BitVec 64
  entry : TraceeView := {}
  execed : Option TraceeView := none
  exit : TraceeView := {}

/-- What a task does while it is traced: a clone that it returns from first, system calls that end,
and one inside which it is killed. -/
structure TaskHistory where
  born : Option (Regs × TraceeView) := none
  syscalls : List Syscall := []
  last : Option (Regs × TraceeView) := none

/-- A task and what was asked at its last restart; `exits` counts the stops that took the exit branch. -/
structure Watched where
  ps : ProcessState
  restart : Restart
  stops : Nat := 0
  exits : Nat := 0
  calls : List SessionCall := []

/-- The kernel puts `-ENOSYS` into the result register before a system call. -/
def Regs.atEntry (regs : Regs) : Regs := { regs with rax := BitVec.ofInt 64 (-enosys) }

namespace Watched
variable (seccompMode : Bool) (clock : Nat → Int) (pid : Int)

def resumed (ps : ProcessState) : Watched := { ps := ps, restart := resumeRequest false seccompMode }

/-- What the tracer reads at the next stop. -/
def look (w : Watched) (regs : Regs) (view : TraceeView) : TraceeView :=
  { view with regs := some regs, now := clock w.stops }

def atSyscallStop (w : Watched) (regs : Regs) (view : TraceeView) : Watched :=
  let handled := handleSyscallStop (w.look clock regs view) pid w.ps
  { ps := handled.1, restart := resumeRequest false seccompMode, stops := w.stops + 1
    exits := w.exits + if stopBranch w.ps regs = .exit then 1 else 0
    calls := w.calls ++ handled.2 }

def atSeccompStop (w : Watched) (regs : Regs) (view : TraceeView) : Watched :=
  let handled := handleSeccompStop (w.look clock regs view) w.ps
  { w with ps := handled.1, restart := handled.2, stops := w.stops + 1 }

def atExecEvent (w : Watched) (regs : Regs) (view : TraceeView) : Watched :=
  let handled := handleExecEvent (w.look clock regs view) pid w.ps
  { w with ps := handled.1, restart := resumeRequest false seccompMode, stops := w.stops + 1
           calls := w.calls ++ handled.2 }

/-- A syscall stop is reported only to a task restarted with PTRACE_SYSCALL. -/
def syscallStop (w : Watched) (regs : Regs) (view : TraceeView) : Watched :=
  if w.restart = .syscall then w.atSyscallStop seccompMode clock pid regs view else w

/-- From user mode into a system call. -/
def enter (order : StopOrder) (w : Watched) (regs : Regs) (view : TraceeView) : Watched :=
  let w := if order = .entryFirst then w.syscallStop seccompMode clock pid regs.atEntry view else w
  let w := if seccompMode && regs.trapped then w.atSeccompStop clock regs.atEntry view else w
  if order = .filterFirst then w.syscallStop seccompMode clock pid regs.atEntry view else w

/-- From a system call back to user mode. -/
def leave (w : Watched) (sc : Syscall) : Watched :=
  let w := match sc.execed with
    | some event => w.atExecEvent seccompMode clock pid sc.regs event
    | none => w
  w.syscallStop seccompMode clock pid { sc.regs with rax := sc.ret } sc.exit

def perform (order : StopOrder) (w : Watched) (sc : Syscall) : Watched :=
  (w.enter seccompMode clock pid order sc.regs sc.entry).leave seccompMode clock pid sc

def performAll (order : StopOrder) (w : Watched) (scs : List Syscall) : Watched :=
  scs.foldl (perform seccompMode clock pid order) w

/-- A whole task. -/
def live (order : StopOrder) (w : Watched) (h : TaskHistory) : Watched :=
  let w := match h.born with
    | some (regs, view) => w.syscallStop seccompMode clock pid { regs with rax := 0 } view
    | none => w
  let w := w.performAll seccompMode clock pid order h.syscalls
  match h.last with
  | some (regs, view) => w.enter seccompMode clock pid order regs view
  | none => w

end Watched

/-- A system call whose exit has to be inspected and that returns with a result of its own. -/
def Syscall.Required (sc : Syscall) : Prop :=
  (decodeSyscallEntry {} sc.regs sc.regs.origRax).exitNeeded = true ∧ sc.ret.toInt ≠ -enosys ∧ sc.execed = none

/-! ### What the handlers do at the stops -/

section
variable {view : TraceeView} (pid : Int) {ps : ProcessState} {regs : Regs}

theorem Regs.atEntry_rax (regs : Regs) : regs.atEntry.rax.toInt = -enosys :=
  (by decide : (BitVec.ofInt 64 (-enosys)).toInt = -enosys)

private theorem stopBranch_atEntry (ps : ProcessState) (regs : Regs) : stopBranch ps regs.atEntry ≠ .exit := by
  simp only [stopBranch, Regs.atEntry_rax, if_true]
  split <;> exact fun h => by cases h

theorem handleSyscallStop_skipped (hphase : ps.scPhase = .exitNext) (hneed : ps.exitNeeded = false) :
    handleSyscallStop view pid ps = ({ ps with scPhase := .entryNext, pendingSyscall := -1 }, []) := by
  rw [handleSyscallStop, if_pos ⟨hphase, hneed⟩]

theorem handleSyscallStop_entry (hregs : view.regs = some regs) (hrax : regs.rax.toInt = -enosys)
    (hphase : ps.scPhase = .exitNext → ps.exitNeeded = true) :
    handleSyscallStop view pid ps = (decodeSyscallEntry { ps with scPhase := .exitNext } regs regs.origRax, []) := by
  have hskip : ¬ (ps.scPhase = .exitNext ∧ ps.exitNeeded = false) := fun h => by simp [hphase h.1] at h
  simp only [handleSyscallStop, stopBranch, hskip, hregs, hrax, if_true, if_false]

theorem handleSyscallStop_exit (hregs : view.regs = some regs) (hrax : regs.rax.toInt ≠ -enosys)
    (hphase : ps.scPhase = .exitNext → ps.exitNeeded = true) :
    handleSyscallStop view pid ps =
      ({ (recordExit view pid { ps with scPhase := .entryNext } regs.rax).1 with
          pendingSyscall := -1, pendingPathAddr := 0, pendingPathAddr2 := 0, exitNeeded := false },
        (recordExit view pid { ps with scPhase := .entryNext } regs.rax).2) := by
  have hskip : ¬ (ps.scPhase = .exitNext ∧ ps.exitNeeded = false) := fun h => by simp [hphase h.1] at h
  simp only [handleSyscallStop, stopBranch, hskip, hregs, hrax, if_false]

theorem handleSeccompStop_needed (hregs : view.regs = some regs)
    (hneed : (decodeSyscallEntry {} regs regs.origRax).exitNeeded = true) :
    handleSeccompStop view ps =
      ({ decodeSyscallEntry ps regs regs.origRax with scPhase := .exitNext }, .syscall) := by
  have hps : (decodeSyscallEntry ps regs regs.origRax).exitNeeded = true := hneed
  simp only [handleSeccompStop, hregs, hps, if_true]

theorem handleSeccompStop_free (hregs : view.regs = some regs)
    (hneed : (decodeSyscallEntry {} regs regs.origRax).exitNeeded = false) :
    handleSeccompStop view ps =
      ({ decodeSyscallEntry ps regs regs.origRax with scPhase := .entryNext, pendingSyscall := -1 }, .cont) := by
  have hps : (decodeSyscallEntry ps regs regs.origRax).exitNeeded = false := hneed
  simp only [handleSeccompStop, hregs, hps, Bool.false_eq_true, if_false]

end

/-! ### The exit branch in seccomp mode -/

namespace Watched
variable (clock : Nat → Int) (pid : Int) {w : Watched}

theorem syscallStop_cont (hw : w.restart = .cont) (mode : Bool) (regs : Regs) (view : TraceeView) :
    w.syscallStop mode clock pid regs view = w := by
  simp only [syscallStop, hw, reduceCtorEq, if_false]

/-- A system call to inspect, when the filter runs last: its seccomp stop asks for the exit stop. -/
theorem enter_needed (hw : w.restart = .cont) {regs : Regs}
    (hneed : (decodeSyscallEntry {} regs regs.origRax).exitNeeded = true) (view : TraceeView) :
    w.enter true clock pid .entryFirst regs view =
      { w with ps := { decodeSyscallEntry w.ps regs.atEntry regs.origRax with scPhase := .exitNext }
               restart := .syscall, stops := w.stops + 1 } := by
  have hstop := @handleSeccompStop_needed (w.look clock regs.atEntry view) w.ps regs.atEntry rfl hneed
  simp only [enter, syscallStop_cont clock pid hw, trapped_of_exitNeeded hneed, Bool.and_self,
    atSeccompStop, hstop, if_true,
    reduceCtorEq, if_false]
  rfl

/-- The same call when the filter runs first: the entry stop after the seccomp stop is continued. -/
private theorem enter_needed_filterFirst (w : Watched) {regs : Regs}
    (hneed : (decodeSyscallEntry {} regs regs.origRax).exitNeeded = true) (view : TraceeView) :
    (w.enter true clock pid .filterFirst regs view).restart = .cont ∧
      (w.enter true clock pid .filterFirst regs view).exits = w.exits := by
  have hstop := @handleSeccompStop_needed (w.look clock regs.atEntry view) w.ps regs.atEntry rfl hneed
  simp only [enter, trapped_of_exitNeeded hneed, Bool.and_self, atSeccompStop, hstop, if_true, reduceCtorEq, if_false,
    syscallStop, atSyscallStop]
  refine ⟨rfl, ?_⟩
  rw [if_neg (stopBranch_atEntry _ _)]
  rfl

/-- Any other call runs to its end without a syscall stop. -/
theorem enter_free (hw : w.restart = .cont) {regs : Regs}
    (hneed : (decodeSyscallEntry {} regs regs.origRax).exitNeeded = false) (order : StopOrder) (view : TraceeView) :
    (w.enter true clock pid order regs view).restart = .cont ∧
      (w.enter true clock pid order regs view).exits = w.exits ∧
      (w.enter true clock pid order regs view).calls = w.calls ∧
      ((w.enter true clock pid order regs view).ps = w.ps ∨ (w.enter true clock pid order regs view).ps =
        { decodeSyscallEntry w.ps regs.atEntry regs.origRax with scPhase := .entryNext, pendingSyscall := -1 }) := by
  have hstop := @handleSeccompStop_free (w.look clock regs.atEntry view) w.ps regs.atEntry rfl hneed
  have hseccomp : (w.atSeccompStop clock regs.atEntry view).restart = .cont := by
    simp only [atSeccompStop, hstop]
  by_cases htrap : regs.trapped = true
  · have henter : w.enter true clock pid order regs view = w.atSeccompStop clock regs.atEntry view := by
      cases order <;> simp [enter, syscallStop_cont clock pid hw, syscallStop_cont clock pid hseccomp, htrap]
    rw [henter]
    refine ⟨hseccomp, rfl, rfl, .inr ?_⟩
    simp only [atSeccompStop, hstop]
    rfl
  · have henter : w.enter true clock pid order regs view = w := by
      cases order <;> simp [enter, syscallStop_cont clock pid hw, htrap]
    rw [henter]
    exact ⟨hw, rfl, rfl, .inl rfl⟩

private theorem leave_cont (hw : w.restart = .cont) (sc : Syscall) :
    (w.leave true clock pid sc).restart = .cont ∧ (w.leave true clock pid sc).exits = w.exits := by
  simp only [leave]
  split
  · rw [syscallStop_cont clock pid rfl]
    exact ⟨rfl, rfl⟩
  · rw [syscallStop_cont clock pid hw]
    exact ⟨hw, rfl⟩

private theorem leave_syscall (hw : w.restart = .syscall) (hneed : w.ps.exitNeeded = true) (sc : Syscall) :
    (w.leave true clock pid sc).restart = .cont ∧ (w.leave true clock pid sc).exits =
      w.exits + if sc.ret.toInt ≠ -enosys ∧ sc.execed.isNone then 1 else 0 := by
  cases hex : sc.execed with
  | some event =>
    simp only [leave, hex]
    rw [syscallStop_cont clock pid rfl]
    exact ⟨rfl, by simp [atExecEvent]⟩
  | none =>
    simp only [leave, hex, syscallStop, hw, if_true, atSyscallStop]
    refine ⟨rfl, ?_⟩
    by_cases hret : sc.ret.toInt = -enosys <;> simp [stopBranch, hneed, hret]

/-- One system call in seccomp mode: the exit branch sees it exactly when it is required and the
filter runs last. -/
private theorem perform_seccomp (hw : w.restart = .cont) (order : StopOrder) (sc : Syscall) :
    (w.perform true clock pid order sc).restart = .cont ∧
      (sc.Required ∧ order = .entryFirst → (w.perform true clock pid order sc).exits = w.exits + 1) ∧
      (¬ (sc.Required ∧ order = .entryFirst) → (w.perform true clock pid order sc).exits = w.exits) := by
  cases hneed : (decodeSyscallEntry {} sc.regs sc.regs.origRax).exitNeeded with
  | false =>
    obtain ⟨hcont, hexits, -, -⟩ := enter_free clock pid hw hneed order sc.entry
    obtain ⟨hr, he⟩ := leave_cont clock pid hcont sc
    refine ⟨hr, fun h => ?_, fun _ => he.trans hexits⟩
    exact absurd (hneed.symm.trans h.1.1) (by decide)
  | true =>
    cases order with
    | filterFirst =>
      obtain ⟨hcont, hexits⟩ := enter_needed_filterFirst clock pid w hneed sc.entry
      obtain ⟨hr, he⟩ := leave_cont clock pid hcont sc
      exact ⟨hr, fun h => absurd h.2 (by decide), fun _ => he.trans hexits⟩
    | entryFirst =>
      have henter := enter_needed clock pid hw hneed sc.entry
      obtain ⟨hr, he⟩ := @leave_syscall clock pid (w.enter true clock pid .entryFirst sc.regs sc.entry)
        (by rw [henter]) (by rw [henter]; exact hneed) sc
      rw [perform]
      refine ⟨hr, fun h => ?_, fun h => ?_⟩
      · rw [he, henter, if_pos ⟨h.1.2.1, by simp [h.1.2.2]⟩]
      · rw [he, henter, if_neg fun hc => h ⟨⟨hneed, hc.1, by simpa using hc.2⟩, rfl⟩]
        rfl

private theorem performAll_cont (hw : w.restart = .cont) (order : StopOrder) (scs : List Syscall) :
    (w.performAll true clock pid order scs).restart = .cont := by
  induction scs generalizing w with
  | nil => exact hw
  | cons sc scs ih => exact ih (perform_seccomp clock pid hw order sc).1

end Watched

open Watched

/-- Exits on an admitted kernel. There each required system call of a task reaches the exit branch
exactly once if and only if the kernel is at least 4.8 or no system call of the task is required. -/
theorem exit_once_iff (v : KernelVersion) (hv : kernelSupportsSeccompTrace (some v) = true) (clock : Nat → Int)
    (pid : Int) (ps : ProcessState) (scs : List Syscall) :
    let mode := attemptSeccomp true false false (some v)
    (∀ before sc after, scs = before ++ sc :: after → sc.Required →
      ((resumed mode ps).performAll mode clock pid v.stopOrder (before ++ [sc])).exits =
        ((resumed mode ps).performAll mode clock pid v.stopOrder before).exits + 1) ↔
    (4 < v.major ∨ v.major = 4 ∧ 8 ≤ v.minor) ∨ ∀ sc ∈ scs, ¬ sc.Required := by
  have hmode : attemptSeccomp true false false (some v) = true := by
    simp only [attemptSeccomp, hv, Bool.not_false, Bool.and_self]
  simp only [hmode]
  have hstep : ∀ before sc, (resumed true ps).performAll true clock pid v.stopOrder (before ++ [sc]) =
      ((resumed true ps).performAll true clock pid v.stopOrder before).perform true clock pid v.stopOrder sc :=
    fun before sc => by rw [performAll, List.foldl_append]; rfl
  have hcont : ∀ before, ((resumed true ps).performAll true clock pid v.stopOrder before).restart = .cont :=
    fun before => performAll_cont clock pid rfl _ before
  constructor
  · intro h
    by_cases hver : 4 < v.major ∨ v.major = 4 ∧ 8 ≤ v.minor
    · exact .inl hver
    · right
      intro sc hsc hreq
      obtain ⟨before, after, rfl⟩ := List.append_of_mem hsc
      have hone := h before sc after rfl hreq
      have horder : v.stopOrder = .filterFirst := by simp only [KernelVersion.stopOrder, hver, if_false]
      rw [hstep, (perform_seccomp clock pid (hcont before) _ sc).2.2 (by simp [horder])] at hone
      omega
  · rintro hwhen before sc after rfl hreq
    have hver := hwhen.resolve_right fun hno => hno sc (by simp) hreq
    have horder : v.stopOrder = .entryFirst := by simp only [KernelVersion.stopOrder, hver, if_true]
    rw [hstep]
    exact (perform_seccomp clock pid (hcont before) _ sc).2.1 ⟨hreq, horder⟩

/-- `open` of the path at address 8, which returns descriptor 3. -/
private def openCall : Syscall :=
  { regs := { origRax := sysOpen, rdi := 8, rax := 0 }, ret := 3, exit := { string := fun _ => "/etc/hosts".toList } }

private theorem openCall_required : openCall.Required := by
  refine ⟨?_, ?_, rfl⟩ <;> decide

/-- Linux 3.10 is admitted, but the exit of an open that returns is never inspected there. -/
theorem exit_lost_on_3_10 :
    kernelSupportsSeccompTrace (some ⟨3, 10⟩) = true ∧ openCall.Required ∧
      ((resumed true {}).performAll true (fun _ => 0) 100 (KernelVersion.stopOrder ⟨3, 10⟩) [openCall]).exits = 0 ∧
      ((resumed true {}).performAll true (fun _ => 0) 100 (KernelVersion.stopOrder ⟨3, 10⟩) [openCall]).calls = [] :=
  ⟨by decide, openCall_required, by decide, by decide⟩

theorem exit_once_on_6_1 :
    ((resumed true {}).performAll true (fun _ => 0) 100 (KernelVersion.stopOrder ⟨6, 1⟩) [openCall]).exits = 1 :=
  (exit_once_iff ⟨6, 1⟩ (by decide) (fun _ => 0) 100 {} [openCall]).mpr (.inl (by decide)) [] openCall [] rfl
    openCall_required

end Bdtrace
