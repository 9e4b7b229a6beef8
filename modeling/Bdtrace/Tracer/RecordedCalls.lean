import Bdtrace.Tracer.CallPhases
import Bdtrace.Tracer.PathFilter

/-! One system call between its entry stop and its exit stop, and what a failure records. -/
namespace Bdtrace

/-- The state after the entry stop of a call. -/
def enterCall (stop : EntryStop) (pid : Int) (ps : ProcessState) (regs : Regs) : ProcessState :=
  match stop with
  | .syscall => (handleSyscallStop { regs := some regs.atEntry } pid ps).1
  | .seccomp => (handleSeccompStop { regs := some regs.atEntry } ps).1

/-- The entry stop and then the exit stop, at which `view` is read. -/
def traceCall (stop : EntryStop) (view : TraceeView) (pid : Int) (ps : ProcessState) (regs : Regs) (ret : BitVec 64) :
    ProcessState × List SessionCall :=
  handleSyscallStop { view with regs := some { regs with rax := ret } } pid (enterCall stop pid ps regs)

/-- The state with what was read at the entry stop. -/
def entered (ps : ProcessState) (regs : Regs) : ProcessState :=
  { decodeSyscallEntry ps regs regs.origRax with scPhase := .exitNext }

/-- The same at the exit stop. -/
def leaving (ps : ProcessState) (regs : Regs) : ProcessState := { entered ps regs with scPhase := .entryNext }

/-- A classic entry stop is looked at only when no exit stop is waited for. -/
def EntryStop.Seen (stop : EntryStop) (ps : ProcessState) : Prop := stop = .syscall → Ready ps

section
variable {stop : EntryStop} {view : TraceeView} {pid : Int} {ps : ProcessState} {regs : Regs} {ret : BitVec 64}

/-- Nothing is recorded of a call that was not entered. -/
private theorem handleSyscallStop_idle (hphase : ps.scPhase = .entryNext) (hidle : ps.pendingSyscall = -1)
    (hregs : view.regs = some regs) : (handleSyscallStop view pid ps).2 = [] := by
  have hready : Ready ps := fun h => by cases hphase.symm.trans h
  by_cases hrax : regs.rax.toInt = -enosys
  · rw [handleSyscallStop_entry pid hregs hrax hready]
  · have hnone := @recordExit_none view pid { ps with scPhase := .entryNext } hidle regs.rax
    rw [handleSyscallStop_exit pid hregs hrax hready, hnone]

theorem enterCall_syscall (hready : Ready ps) : enterCall .syscall pid ps regs = entered ps regs := by
  rw [enterCall, handleSyscallStop_entry pid rfl regs.atEntry_rax hready]
  rfl

private theorem enterCall_needed (hseen : stop.Seen ps) (hneed : regs.needed = true) :
    enterCall stop pid ps regs = entered ps regs := by
  cases stop with
  | syscall => exact enterCall_syscall (hseen rfl)
  | seccomp =>
    have hneed' : (decodeSyscallEntry {} regs.atEntry regs.atEntry.origRax).exitNeeded = true := hneed
    rw [enterCall, handleSeccompStop_needed rfl hneed']
    rfl

theorem traceCall_calls (hseen : stop.Seen ps) (hneed : regs.needed = true) (hret : ret.toInt ≠ -enosys) :
    (traceCall stop view pid ps regs ret).2 = (recordExit view pid (leaving ps regs) ret).2 := by
  have hready : Ready (entered ps regs) := fun _ => hneed
  rw [traceCall, enterCall_needed hseen hneed, handleSyscallStop_exit pid rfl hret hready]
  rfl

/-- The exit stop is taken for an entry stop. -/
private theorem traceCall_enosys (hseen : stop.Seen ps) (hneed : regs.needed = true) (hret : ret.toInt = -enosys) :
    (traceCall stop view pid ps regs ret).2 = [] := by
  have hready : Ready (entered ps regs) := fun _ => hneed
  rw [traceCall, enterCall_needed hseen hneed, handleSyscallStop_entry pid rfl hret hready]

private theorem traceCall_unseen (hseen : ¬stop.Seen ps) : (traceCall stop view pid ps regs ret).2 = [] := by
  simp only [EntryStop.Seen, Ready, Classical.not_imp, Bool.not_eq_true] at hseen
  obtain ⟨rfl, hphase, hneed⟩ := hseen
  rw [traceCall, enterCall, handleSyscallStop_skipped pid hphase hneed]
  exact handleSyscallStop_idle rfl rfl rfl

/-- A call that saves nothing leaves no exit to look at. -/
private theorem traceCall_unneeded (hneed : regs.needed = false) : (traceCall stop view pid ps regs ret).2 = [] := by
  by_cases hseen : stop.Seen ps
  · cases stop with
    | syscall =>
      have hskip : (entered ps regs).exitNeeded = false := hneed
      rw [traceCall, enterCall_syscall (hseen rfl), handleSyscallStop_skipped pid rfl hskip]
    | seccomp =>
      have hneed' : (decodeSyscallEntry {} regs.atEntry regs.atEntry.origRax).exitNeeded = false := hneed
      rw [traceCall, enterCall, handleSeccompStop_free rfl hneed']
      exact handleSyscallStop_idle rfl rfl rfl
  · exact traceCall_unseen hseen

/-- After a call the next entry stop is looked at again. -/
theorem traceCall_ready (hready : Ready ps) : Ready (traceCall .syscall view pid ps regs ret).1 := by
  rw [traceCall, enterCall_syscall hready]
  cases hneed : regs.needed with
  | false =>
    have hskip : (entered ps regs).exitNeeded = false := hneed
    rw [handleSyscallStop_skipped pid rfl hskip]
    exact fun h => by cases h
  | true =>
    have hinside : Ready (entered ps regs) := fun _ => hneed
    by_cases hret : ret.toInt = -enosys
    · rw [handleSyscallStop_entry pid rfl hret hinside]
      exact fun _ => hneed
    · rw [handleSyscallStop_exit pid rfl hret hinside]
      intro h
      have hframe := (recordExit_records view pid (leaving ps regs) ret).frame
      have hphase : (recordExit view pid (leaving ps regs) ret).1.scPhase = .entryNext := by
        rw [hframe]
        rfl
      cases hphase.symm.trans h

/-- What is recorded is what the exit branch records with what was saved at the entry. -/
theorem traceCall_cases : (traceCall stop view pid ps regs ret).2 = [] ∨
    (traceCall stop view pid ps regs ret).2 = (recordExit view pid (leaving ps regs) ret).2 := by
  by_cases hseen : stop.Seen ps
  · cases hneed : regs.needed with
    | false => exact .inl (traceCall_unneeded hneed)
    | true =>
      by_cases hret : ret.toInt = -enosys
      · exact .inl (traceCall_enosys hseen hneed hret)
      · exact .inr (traceCall_calls hseen hneed hret)
  · exact .inl (traceCall_unseen hseen)

end

/-! ### Failures -/

def openFamily : List (BitVec 64) := [sysOpen, sysOpenat, sysOpenat2, sysCreat]
def statFamily : List (BitVec 64) := [sysStat, sysLstat, sysNewfstatat, sysStatx]
def accessFamily : List (BitVec 64) := [sysAccess, sysFaccessat, sysFaccessat2]
def execFamily : List (BitVec 64) := [sysExecve, sysExecveat]

/-- The results by which the kernel reports an error. -/
def IsErrno (ret : BitVec 64) : Prop := -4095 ≤ ret.toInt ∧ ret.toInt ≤ -1

private theorem errno_toInt {ret : BitVec 64} (h : IsErrno ret) : ((-ret).truncate 32).toInt = -ret.toInt := by
  obtain ⟨hlow, hhigh⟩ := h
  have hlt := ret.isLt
  simp only [BitVec.toInt_eq_toNat_cond, BitVec.truncate_eq_setWidth, BitVec.toNat_setWidth, BitVec.toNat_neg] at *
  omega

/-- Only an access is stored as an access. -/
theorem call_fileAccess {fatal : Bool} {s : TraceSession} {call : SessionCall} {rec : FileAccessRecord}
    (h : (s.call fatal call).2 = some (.fileAccess rec)) : ∃ rec', call = .fileAccess rec' := by
  cases call with
  | fileAccess rec' => exact ⟨rec', rfl⟩
  | failedAccess rec' =>
    simp only [TraceSession.call, TraceSession.onFailedAccess] at h
    split at h
    · cases h
    · split at h
      all_goals cases h
  | processStart rec' =>
    simp only [TraceSession.call, TraceSession.onProcessStart] at h
    split at h
    all_goals cases h
  | processExit p x =>
    simp only [TraceSession.call, TraceSession.onProcessExit] at h
    split at h
    all_goals cases h
  | deleteProcess p =>
    simp only [TraceSession.call, TraceSession.deleteProcess] at h
    split at h
    all_goals cases h

/-- The mode with which a failure is recorded. -/
def failureMode (nr : BitVec 64) (flags : BitVec 32) : Option FileAccessMode :=
  if openFamily.contains nr then some (openMode flags)
  else if statFamily.contains nr then some .stat
  else if accessFamily.contains nr then some .access
  else none

private theorem failureMode_exec {nr : BitVec 64} (h : nr ∈ execFamily) (flags : BitVec 32) :
    failureMode nr flags = none := by
  simp only [execFamily, List.mem_cons, List.not_mem_nil, or_false] at h
  rcases h with rfl | rfl
  all_goals rfl

private theorem failureMode_family {nr : BitVec 64} (h : nr ∈ openFamily ++ statFamily ++ accessFamily)
    (flags : BitVec 32) :
    ∃ mode, failureMode nr flags = some mode := by
  rw [List.mem_append, List.mem_append, or_assoc] at h
  simp only [failureMode, List.contains_iff_mem]
  split
  · exact ⟨_, rfl⟩
  · split
    · exact ⟨_, rfl⟩
    · rw [if_pos (by tauto)]
      exact ⟨_, rfl⟩

section
variable {view : TraceeView} {pid : Int} {ps : ProcessState} {addr ret : BitVec 64} {name : Str}

theorem addr_of_recorded (h : (recordedPath view ps addr).2 = some name) : addr ≠ 0 := by
  rintro rfl
  cases h

theorem recordAccess_recorded (h : (recordedPath view ps addr).2 = some name) (mode : FileAccessMode) (fd : Int) :
    (recordAccess view pid ps addr mode fd).2 =
      [.fileAccess { pid := pid, filename := name, mode := mode, fd := fd, timestampUs := view.now }] := by
  rw [recordAccess, h]
  rfl

theorem recordFailedAccess_recorded (h : (recordedPath view ps addr).2 = some name) (mode : FileAccessMode) (e : Int) :
    (recordFailedAccess view pid ps addr mode e).2 =
      [.failedAccess { pid := pid, filename := name, mode := mode, errnoVal := e, timestampUs := view.now }] := by
  rw [recordFailedAccess, h]
  rfl

/-- The exit branch on an error. -/
private theorem recordExit_failed (hret : IsErrno ret)
    (hname : (recordedPath view ps ps.pendingPathAddr).2 = some name) :
    (recordExit view pid ps ret).2 =
      match failureMode ps.pendingSyscall ps.pendingFlags with
      | some mode => [.failedAccess
          { pid := pid, filename := name, mode := mode, errnoVal := -ret.toInt, timestampUs := view.now }]
      | none =>
        if ps.pendingSyscall ∈ execFamily then
          [.fileAccess { pid := pid, filename := name, mode := .exec, fd := -1, timestampUs := view.now }]
        else [] := by
  have haddr := addr_of_recorded hname
  have hneg : ret.toInt < 0 := by
    have := hret.2
    omega
  have hnotle : ¬0 ≤ ret.toInt := not_le.mpr hneg
  have hchain : (recordExit view pid ps ret).2 =
      if ps.pendingSyscall ∈ openFamily then
        (recordFailedAccess view pid ps ps.pendingPathAddr (openMode ps.pendingFlags) ((-ret).truncate 32).toInt).2
      else if ps.pendingSyscall ∈ statFamily then
        (recordFailedAccess view pid ps ps.pendingPathAddr .stat ((-ret).truncate 32).toInt).2
      else if ps.pendingSyscall ∈ accessFamily then
        (recordFailedAccess view pid ps ps.pendingPathAddr .access ((-ret).truncate 32).toInt).2
      else if ps.pendingSyscall ∈ execFamily then (recordAccess view pid ps ps.pendingPathAddr .exec (-1)).2
      else [] := by
    simp only [recordExit, recordEither, recordOne, recordTwo, hnotle, hneg, haddr, if_false, if_true,
      ite_self, false_and,
      true_and, ne_eq, not_false_eq_true, openFamily, statFamily, accessFamily, execFamily, List.mem_cons,
      List.not_mem_nil, or_false, apply_ite Prod.snd]
  rw [hchain, failureMode, errno_toInt hret]
  simp only [recordFailedAccess_recorded hname, recordAccess_recorded hname, List.contains_iff_mem]
  split
  · rfl
  · split
    · rfl
    · split
      · rfl
      · rfl

end

section
variable {stop : EntryStop} {view : TraceeView} {pid : Int} {ps : ProcessState} {regs : Regs}
    {ret : BitVec 64} {name : Str}

theorem needed_of_recorded (h : (recordedPath view ps (entryArgs regs regs.origRax).1).2 = some name) :
    regs.needed = true := by
  rw [Regs.needed, decodeSyscallEntry, Bool.or_eq_true]
  exact .inl (decide_eq_true (addr_of_recorded h))

/-- All that a failed call records. -/
private theorem traceCall_failed (hseen : stop.Seen ps)
    (hname : (recordedPath view ps (entryArgs regs regs.origRax).1).2 = some name)
    (hret : IsErrno ret) (hsys : ret.toInt ≠ -enosys) :
    (traceCall stop view pid ps regs ret).2 =
      match failureMode regs.origRax (entryArgs regs regs.origRax).2.2 with
      | some mode => [.failedAccess
          { pid := pid, filename := name, mode := mode, errnoVal := -ret.toInt, timestampUs := view.now }]
      | none =>
        if regs.origRax ∈ execFamily then
          [.fileAccess { pid := pid, filename := name, mode := .exec, fd := -1, timestampUs := view.now }]
        else [] := by
  have hleaving : (recordedPath view (leaving ps regs) (leaving ps regs).pendingPathAddr).2 = some name :=
    (@recordedPath_lookup view (leaving ps regs) ps rfl _).trans hname
  rw [traceCall_calls hseen (needed_of_recorded hname) hsys]
  exact recordExit_failed hret hleaving

/-- A failed call adds no access, except that a failed exec is one, and the open, stat and access families report
one failure with its errno. An exit with ENOSYS is taken for an entry, so that nothing is recorded. -/
theorem failed_call_records (hseen : stop.Seen ps)
    (hname : (recordedPath view ps (entryArgs regs regs.origRax).1).2 = some name)
    (hret : IsErrno ret) :
    (regs.origRax ∈ execFamily → ret.toInt ≠ -enosys → (traceCall stop view pid ps regs ret).2 =
      [.fileAccess { pid := pid, filename := name, mode := .exec, fd := -1, timestampUs := view.now }]) ∧
    (¬(regs.origRax ∈ execFamily ∧ ret.toInt ≠ -enosys) → ∀ call ∈ (traceCall stop view pid ps regs ret).2,
      ∀ (fatal : Bool) (s : TraceSession) (rec : FileAccessRecord), (s.call fatal call).2 ≠ some (.fileAccess rec)) ∧
    (regs.origRax ∈ openFamily ++ statFamily ++ accessFamily → ret.toInt ≠ -enosys →
      ∃ mode, failureMode regs.origRax (entryArgs regs regs.origRax).2.2 = some mode ∧
        (traceCall stop view pid ps regs ret).2 = [.failedAccess
          { pid := pid, filename := name, mode := mode, errnoVal := -ret.toInt, timestampUs := view.now }]) ∧
    (ret.toInt = -enosys → (traceCall stop view pid ps regs ret).2 = []) := by
  have henosys : ret.toInt = -enosys → (traceCall stop view pid ps regs ret).2 = [] :=
    traceCall_enosys hseen (needed_of_recorded hname)
  have hfailed := @traceCall_failed stop view pid ps regs ret name hseen hname hret
  refine ⟨fun hexec hsys => ?_, fun hother call hcall fatal s rec => ?_, fun hfamily hsys => ?_, henosys⟩
  · rw [hfailed hsys, failureMode_exec hexec]
    exact if_pos hexec
  · by_cases hsys : ret.toInt = -enosys
    · rw [henosys hsys] at hcall
      cases hcall
    · intro hqueued
      obtain ⟨rec', rfl⟩ := call_fileAccess hqueued
      rw [hfailed hsys] at hcall
      split at hcall
      · cases List.mem_singleton.mp hcall
      · split at hcall
        · exact hother ⟨by assumption, hsys⟩
        · cases hcall
  · obtain ⟨mode, hmode⟩ := failureMode_family hfamily (entryArgs regs regs.origRax).2.2
    refine ⟨mode, hmode, ?_⟩
    rw [hfailed hsys, hmode]

end

/-- `access("/usr/lib/libm.so")` fails with ENOENT. -/
def accessLibm : Regs := { origRax := sysAccess, rdi := 1, rax := 0 }

def libmView : TraceeView := { string := fun _ => "/usr/lib/libm.so".toList, now := 7 }

theorem failed_access_recorded :
    ∃ mode, failureMode sysAccess 0 = some mode ∧ (traceCall .syscall libmView 20 {} accessLibm (-2)).2 =
      [.failedAccess
        { pid := 20, filename := "/usr/lib/libm.so".toList, mode := mode, errnoVal := 2, timestampUs := 7 }] :=
  (@failed_call_records .syscall libmView 20 {} accessLibm (-2) "/usr/lib/libm.so".toList
    (fun _ h => by cases h) (by decide)
    ⟨by decide, by decide⟩).2.2.1 (by decide) (by decide)

/-- A failed execve of the file is stored as an access, and an openat that fails with ENOSYS leaves nothing. -/
theorem failure_kept_as_access :
    (traceCall .syscall libmView 20 {} { accessLibm with origRax := sysExecve } (-2)).2 =
      [.fileAccess { pid := 20, filename := "/usr/lib/libm.so".toList, mode := .exec, fd := -1, timestampUs := 7 }] ∧
    (traceCall .syscall libmView 20 {} { accessLibm with origRax := sysOpenat, rsi := 1 } (-38)).2 = [] := by
  decide

end Bdtrace
