import Bdtrace.Tracer.StopOrders

/-! The seccomp fast path makes the same session calls as the classic stops. Between two system
calls both modes keep the same state, apart from the phase and what the last entry saved. -/
namespace Bdtrace

/-- A call without its time. -/
def SessionCall.untimed : SessionCall → SessionCall
  | .processStart rec => .processStart { rec with startTimeUs := 0, endTimeUs := 0 }
  | .processExit pid x => .processExit pid { x with endTimeUs := 0 }
  | .fileAccess rec => .fileAccess { rec with timestampUs := 0 }
  | .failedAccess rec => .failedAccess { rec with timestampUs := 0 }
  | .deleteProcess pid => .deleteProcess pid

def untimed (cs : List SessionCall) : List SessionCall := cs.map SessionCall.untimed

@[simp] theorem untimed_append (cs ds : List SessionCall) : untimed (cs ++ ds) = untimed cs ++ untimed ds :=
  List.map_append

/-- The state of a task that a system call entry does not overwrite. -/
def ProcessState.core (ps : ProcessState) : ProcessState :=
  { ps with scPhase := .unknown, exitNeeded := false, pendingSyscall := -1, pendingPathAddr := 0
            pendingPathAddr2 := 0, pendingFlags := 0 }

/-! ### The handlers read the core and not the clock -/

section
variable {v v' : TraceeView} (pid : Int)

/-- Two views of one moment that may differ in the clock. -/
def TraceeView.Same (v v' : TraceeView) : Prop := ∀ t, { v with now := t } = { v' with now := t }

/-- Two results that may differ in the times of their calls. -/
def Agree (a b : ProcessState × List SessionCall) : Prop := a.1 = b.1 ∧ untimed a.2 = untimed b.2

private theorem agree_refl (a : ProcessState × List SessionCall) : Agree a a := ⟨rfl, rfl⟩

theorem TraceeView.Same.fields (h : v.Same v') :
    v.regs = v'.regs ∧ v.string = v'.string ∧ v.cwd = v'.cwd ∧ v.exe = v'.exe ∧ v.cmdline = v'.cmdline := by
  have h0 := h 0
  simp only [TraceeView.mk.injEq, and_true] at h0
  exact h0

private theorem recordedPath_same (h : v.Same v') (ps : ProcessState) (addr : BitVec 64) :
    recordedPath v ps addr = recordedPath v' ps addr := by
  obtain ⟨-, hstr, hcwd, -, -⟩ := h.fields
  have hread : readString v addr = readString v' addr := by simp only [readString, hstr]
  have hresolve : resolvePathCached v ps = resolvePathCached v' ps := by
    funext path
    simp only [resolvePathCached, hcwd]
  simp only [recordedPath, hread, hresolve]

private theorem recordAccess_same (h : v.Same v') (ps : ProcessState) (addr : BitVec 64) (mode : FileAccessMode)
    (fd : Int) : Agree (recordAccess v pid ps addr mode fd) (recordAccess v' pid ps addr mode fd) := by
  simp only [recordAccess, recordedPath_same h]
  refine ⟨rfl, ?_⟩
  cases (recordedPath v' ps addr).2 <;> rfl

private theorem recordFailedAccess_same (h : v.Same v') (ps : ProcessState) (addr : BitVec 64)
    (mode : FileAccessMode) (e : Int) :
    Agree (recordFailedAccess v pid ps addr mode e) (recordFailedAccess v' pid ps addr mode e) := by
  simp only [recordFailedAccess, recordedPath_same h]
  refine ⟨rfl, ?_⟩
  cases (recordedPath v' ps addr).2 <;> rfl

private theorem recordGiven_same (h : v.Same v') (ps : ProcessState) (addr : BitVec 64) (mode : FileAccessMode) :
    Agree (recordGiven v pid ps addr mode) (recordGiven v' pid ps addr mode) := by
  simp only [recordGiven]
  split
  · exact recordAccess_same pid h ps addr mode (-1)
  · exact agree_refl _

private theorem recordExit_same (h : v.Same v') (ps : ProcessState) (rax : BitVec 64) :
    Agree (recordExit v pid ps rax) (recordExit v' pid ps rax) := by
  obtain ⟨-, -, hcwd, -, -⟩ := h.fields
  refine recordExit_forms (P := fun f => Agree (f v) (f v')) ?_ ?_ ?_ ?_ ?_ ?_ ?_
  · exact agree_refl _
  · intro mode fd
    simp only [recordEither]
    split
    · exact agree_refl _
    · split
      · exact recordAccess_same pid h ps _ mode fd
      · exact recordFailedAccess_same pid h ps _ mode _
  · intro mode
    simp only [recordOne]
    split
    · exact recordGiven_same pid h ps _ mode
    · exact agree_refl _
  · intro src dst
    have hsrc := recordGiven_same pid h ps ps.pendingPathAddr src
    have hdst := recordGiven_same pid h (recordGiven v' pid ps ps.pendingPathAddr src).1
      ps.pendingPathAddr2 dst
    simp only [recordTwo, hsrc.1]
    split
    · exact ⟨hdst.1, by rw [untimed_append, untimed_append, hsrc.2, hdst.2]⟩
    · exact agree_refl _
  · exact recordAccess_same pid h ps _ _ _
  · have hchdir := recordAccess_same pid h ps ps.pendingPathAddr .chdir (-1)
    simp only [hcwd, hchdir.1]
    exact ⟨rfl, hchdir.2⟩
  · simp only [hcwd]
    refine ⟨rfl, ?_⟩
    simp only
    split <;> rfl

theorem handleExecEvent_same (h : v.Same v') (ps : ProcessState) :
    Agree (handleExecEvent v pid ps) (handleExecEvent v' pid ps) := by
  obtain ⟨-, -, hcwd, hexe, hcmd⟩ := h.fields
  simp only [handleExecEvent, execAccess, hcwd, hexe, hcmd]
  refine ⟨rfl, ?_⟩
  rw [untimed_append, untimed_append]
  congr 1
  split <;> rfl

end

private theorem decode_core {ps ps' : ProcessState} (h : ps.core = ps'.core) (regs : Regs) (nr : BitVec 64)
    (phase : SyscallPhase) :
    { decodeSyscallEntry ps regs nr with scPhase := phase } =
      { decodeSyscallEntry ps' regs nr with scPhase := phase } := by
  simp only [ProcessState.core, ProcessState.mk.injEq] at h
  simp only [decodeSyscallEntry, h]

theorem handleExecEvent_core (view : TraceeView) (pid : Int) {ps ps' : ProcessState} (h : ps.core = ps'.core) :
    (handleExecEvent view pid ps).1.core = (handleExecEvent view pid ps').1.core ∧
      (handleExecEvent view pid ps).2 = (handleExecEvent view pid ps').2 := by
  simp only [ProcessState.core, ProcessState.mk.injEq] at h
  simp only [handleExecEvent, ProcessState.core, h, and_self]

/-! ### The simulation -/

/-- Between two system calls: the classic task and the seccomp task. -/
structure Alike (c s : Watched) : Prop where
  core : c.ps.core = s.ps.core
  /-- A classic exit stop that was taken for an entry left its call to be inspected. -/
  phase : c.ps.scPhase = .exitNext → c.ps.exitNeeded = true
  classic : c.restart = .syscall
  seccomp : s.restart = .cont
  calls : untimed c.calls = untimed s.calls

namespace Watched
variable (clock clock' : Nat → Int) (pid : Int) {c s : Watched}

private theorem look_same (c s : Watched) (regs : Regs) (view : TraceeView) :
    (c.look clock regs view).Same (s.look clock' regs view) := fun _ => rfl

/-- In classic mode every system call stops at its entry. -/
private theorem enter_classic (hc : c.restart = .syscall)
    (hphase : c.ps.scPhase = .exitNext → c.ps.exitNeeded = true) (regs : Regs) (view : TraceeView) :
    (c.enter false clock pid .entryFirst regs view).restart = .syscall ∧
      (c.enter false clock pid .entryFirst regs view).ps =
        { decodeSyscallEntry c.ps regs.atEntry regs.origRax with scPhase := .exitNext } ∧
      (c.enter false clock pid .entryFirst regs view).calls = c.calls := by
  have hstop := @handleSyscallStop_entry (c.look clock regs.atEntry view) pid c.ps _ rfl regs.atEntry_rax hphase
  simp only [enter, syscallStop, hc, atSyscallStop, hstop, if_true, Bool.false_and, Bool.false_eq_true,
    reduceCtorEq, if_false, List.append_nil, and_true]
  exact ⟨rfl, rfl⟩

private theorem leave_execed (hphase : c.ps.scPhase = .exitNext) (hcore : c.ps.core = s.ps.core)
    (hcalls : untimed c.calls = untimed s.calls) {sc : Syscall} {event : TraceeView} (hex : sc.execed = some event) :
    Alike (c.leave false clock pid sc) (s.leave true clock' pid sc) := by
  have hskip := @handleSyscallStop_skipped
    ((c.atExecEvent false clock pid sc.regs event).look clock { sc.regs with rax := sc.ret } sc.exit) pid
    (c.atExecEvent false clock pid sc.regs event).ps hphase rfl
  have hrest : s.leave true clock' pid sc = s.atExecEvent true clock' pid sc.regs event := by
    simp only [leave, hex]
    exact syscallStop_cont clock' pid rfl true _ _
  have hclassic : c.leave false clock pid sc =
      (c.atExecEvent false clock pid sc.regs event).atSyscallStop false clock pid { sc.regs with rax := sc.ret }
        sc.exit := by
    simp only [leave, hex]
    exact if_pos rfl
  have hsame := handleExecEvent_same pid (look_same clock clock' c s sc.regs event) c.ps
  have hexec := handleExecEvent_core (s.look clock' sc.regs event) pid hcore
  rw [hrest, hclassic]
  refine ⟨?_, fun h => ?_, rfl, rfl, ?_⟩
  · simp only [atSyscallStop, hskip]
    exact (congrArg ProcessState.core hsame.1).trans hexec.1
  · simp only [atSyscallStop, hskip, reduceCtorEq] at h
  · simp only [atSyscallStop, hskip, List.append_nil]
    simp only [atExecEvent]
    rw [untimed_append, untimed_append, hcalls, hsame.2, hexec.2]

private theorem leave_free (hc : c.restart = .syscall) (hs : s.restart = .cont) (hphase : c.ps.scPhase = .exitNext)
    (hneed : c.ps.exitNeeded = false) (hcore : c.ps.core = s.ps.core) (hcalls : untimed c.calls = untimed s.calls)
    {sc : Syscall} (hex : sc.execed = none) : Alike (c.leave false clock pid sc) (s.leave true clock' pid sc) := by
  have hskip := @handleSyscallStop_skipped (c.look clock { sc.regs with rax := sc.ret } sc.exit) pid c.ps hphase hneed
  have hrest : s.leave true clock' pid sc = s := by simp only [leave, hex, syscallStop_cont clock' pid hs]
  rw [hrest]
  simp only [leave, hex, syscallStop, hc, if_true, atSyscallStop, hskip, List.append_nil]
  exact ⟨hcore, (fun h => by cases h), rfl, hs, hcalls⟩

private theorem leave_needed (hc : c.restart = .syscall) (hs : s.restart = .syscall) {sc : Syscall}
    (hregs : (decodeSyscallEntry {} sc.regs sc.regs.origRax).exitNeeded = true) (hneed : c.ps.exitNeeded = true)
    (hps : c.ps = s.ps) (hcalls : untimed c.calls = untimed s.calls) (hex : sc.execed = none) :
    Alike (c.leave false clock pid sc) (s.leave true clock' pid sc) := by
  have hphase : c.ps.scPhase = .exitNext → c.ps.exitNeeded = true := fun _ => hneed
  simp only [leave, hex, syscallStop, hc, hs, if_true, atSyscallStop, ← hps]
  by_cases hret : sc.ret.toInt = -enosys
  · -- an exit with -ENOSYS looks like the entry of the same call
    rw [handleSyscallStop_entry pid rfl hret hphase, handleSyscallStop_entry pid rfl hret hphase]
    exact ⟨rfl, fun _ => hregs, rfl, rfl, by simpa only [List.append_nil] using hcalls⟩
  · have hsame := recordExit_same pid
      (look_same clock clock' c s { sc.regs with rax := sc.ret } sc.exit)
      { c.ps with scPhase := .entryNext } sc.ret
    have hframe := (recordExit_records (c.look clock { sc.regs with rax := sc.ret } sc.exit) pid
      { c.ps with scPhase := .entryNext } sc.ret).frame
    rw [handleSyscallStop_exit pid rfl hret hphase, handleSyscallStop_exit pid rfl hret hphase]
    refine ⟨by simp only [hsame.1], fun h => ?_, rfl, rfl, ?_⟩
    · have hentry := congrArg ProcessState.scPhase hframe
      simp only at h hentry
      simp [hentry] at h
    · rw [untimed_append, untimed_append, hcalls, hsame.2]

/-- One system call in both modes. -/
private theorem perform_alike (h : Alike c s) (sc : Syscall) :
    Alike (c.perform false clock pid .entryFirst sc) (s.perform true clock' pid .entryFirst sc) := by
  obtain ⟨hc, hcps, hccalls⟩ := enter_classic clock pid h.classic h.phase sc.regs sc.entry
  simp only [perform]
  generalize c.enter false clock pid .entryFirst sc.regs sc.entry = c' at hc hcps hccalls ⊢
  have hphase : c'.ps.scPhase = .exitNext := by rw [hcps]
  cases hneed : (decodeSyscallEntry {} sc.regs sc.regs.origRax).exitNeeded with
  | true =>
    have hneed' : c'.ps.exitNeeded = true := by rw [hcps]; exact hneed
    have henter := enter_needed clock' pid h.seccomp hneed sc.entry
    generalize s.enter true clock' pid .entryFirst sc.regs sc.entry = s' at henter ⊢
    have hps : c'.ps = s'.ps := by
      rw [hcps, henter]
      exact decode_core h.core sc.regs.atEntry sc.regs.origRax .exitNext
    have hcalls : untimed c'.calls = untimed s'.calls := by rw [hccalls, henter, h.calls]
    cases hex : sc.execed with
    | some event => exact leave_execed clock clock' pid hphase (congrArg ProcessState.core hps) hcalls hex
    | none => exact leave_needed clock clock' pid hc (by rw [henter]) hneed hneed' hps hcalls hex
  | false =>
    have hneed' : c'.ps.exitNeeded = false := by rw [hcps]; exact hneed
    obtain ⟨hcont, -, hscalls, hps⟩ := enter_free clock' pid h.seccomp hneed .entryFirst sc.entry
    generalize s.enter true clock' pid .entryFirst sc.regs sc.entry = s' at hcont hscalls hps ⊢
    have hcore : c'.ps.core = s'.ps.core := by
      rw [hcps]
      rcases hps with hps | hps <;> rw [hps] <;> exact h.core
    have hcalls : untimed c'.calls = untimed s'.calls := by rw [hccalls, hscalls, h.calls]
    cases hex : sc.execed with
    | some event => exact leave_execed clock clock' pid hphase hcore hcalls hex
    | none => exact leave_free clock clock' pid hc hcont hphase hneed' hcore hcalls hex

private theorem performAll_alike (h : Alike c s) (scs : List Syscall) :
    Alike (c.performAll false clock pid .entryFirst scs) (s.performAll true clock' pid .entryFirst scs) := by
  induction scs generalizing c s with
  | nil => exact h
  | cons sc scs ih => exact ih (perform_alike clock clock' pid h sc)

/-- The exit stop of the clone that made the task, which only classic mode reports, records nothing. -/
private theorem born_alike {ps : ProcessState} (hphase : ps.scPhase = .unknown) (hnone : ps.pendingSyscall = -1)
    (regs : Regs) (view : TraceeView) :
    Alike ((resumed false ps).syscallStop false clock pid { regs with rax := 0 } view)
      ((resumed true ps).syscallStop true clock' pid { regs with rax := 0 } view) := by
  have hexit := @handleSyscallStop_exit ((resumed false ps).look clock { regs with rax := 0 } view) pid ps _ rfl
    (by decide : (0 : BitVec 64).toInt ≠ -enosys) (fun h => by simp [hphase] at h)
  have hrec := @recordExit_none ((resumed false ps).look clock { regs with rax := 0 } view) pid
    { ps with scPhase := .entryNext } hnone 0
  rw [@syscallStop_cont clock' pid (resumed true ps) rfl]
  simp only [hrec] at hexit
  have hclassic : (resumed false ps).syscallStop false clock pid { regs with rax := 0 } view =
      (resumed false ps).atSyscallStop false clock pid { regs with rax := 0 } view := if_pos rfl
  rw [hclassic]
  refine ⟨?_, fun h => ?_, rfl, rfl, ?_⟩
  · simp only [atSyscallStop, resumed] at hexit ⊢
    rw [hexit]
    rfl
  · simp only [atSyscallStop, resumed] at hexit h
    rw [hexit] at h
    cases h
  · simp only [atSyscallStop, resumed] at hexit ⊢
    rw [hexit]
    rfl

/-- Nothing is recorded while a task is inside a system call. -/
private theorem enter_alike (h : Alike c s) (regs : Regs) (view : TraceeView) :
    untimed (c.enter false clock pid .entryFirst regs view).calls =
      untimed (s.enter true clock' pid .entryFirst regs view).calls := by
  rw [(enter_classic clock pid h.classic h.phase regs view).2.2, h.calls]
  cases hneed : (decodeSyscallEntry {} regs regs.origRax).exitNeeded with
  | true => rw [enter_needed clock' pid h.seccomp hneed]
  | false => rw [(enter_free clock' pid h.seccomp hneed .entryFirst view).2.2.1]

end Watched

open Watched

/-- The fast path. From Linux 4.8 on, the calls of a task in seccomp mode and in classic mode are the
same but for their times, whatever the task does. -/
theorem fastPath_calls (clock clock' : Nat → Int) (pid ppid : Int) (cwd cmdline : Str) (traced : Bool)
    (h : TaskHistory) :
    let ps := { ProcessState.registered pid ppid cwd cmdline with traced := traced }
    untimed ((resumed true ps).live true clock' pid .entryFirst h).calls =
      untimed ((resumed false ps).live false clock pid .entryFirst h).calls := by
  intro ps
  obtain ⟨born, syscalls, last⟩ := h
  have hborn : ∃ c s, Alike c s ∧
      (resumed false ps).live false clock pid .entryFirst ⟨born, syscalls, last⟩ =
        c.live false clock pid .entryFirst ⟨none, syscalls, last⟩ ∧
      (resumed true ps).live true clock' pid .entryFirst ⟨born, syscalls, last⟩ =
        s.live true clock' pid .entryFirst ⟨none, syscalls, last⟩ := by
    cases born with
    | none =>
      have hphase : ps.scPhase = .unknown := rfl
      exact ⟨resumed false ps, resumed true ps, ⟨rfl, fun h => by simp [resumed, hphase] at h, rfl, rfl, rfl⟩, rfl, rfl⟩
    | some b => exact ⟨_, _, born_alike clock clock' pid rfl rfl b.1 b.2, rfl, rfl⟩
  obtain ⟨c, s, halike, hc, hs⟩ := hborn
  have hall := performAll_alike clock clock' pid halike syscalls
  rw [hc, hs]
  cases last with
  | none => exact hall.calls.symm
  | some l => exact (enter_alike clock clock' pid hall l.1 l.2).symm

end Bdtrace
