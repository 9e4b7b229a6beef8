import Bdtrace.Session.TraceSession
import Bdtrace.Tracer.SyscallTable

/-! What the tracer does at the syscall stops of one task, and which accesses it records. -/
namespace Bdtrace

/-- `user_regs_struct`, the registers that a stop reads. -/
structure Regs where
  origRax : BitVec 64
  rdi : BitVec 64 := 0
  rsi : BitVec 64 := 0
  rdx : BitVec 64 := 0
  r10 : BitVec 64 := 0
  rax : BitVec 64
  deriving DecidableEq, Repr

inductive SyscallPhase where
  | unknown | entryNext | exitNext
  deriving DecidableEq, Repr

/-- `ProcessState`; the cached `/proc/<pid>/mem` descriptor only makes reads cheaper and is left out. -/
structure ProcessState where
  pid : Int := 0
  ppid : Int := 0
  scPhase : SyscallPhase := .unknown
  exitNeeded : Bool := false
  pendingSyscall : BitVec 64 := -1
  pendingPathAddr : BitVec 64 := 0
  pendingPathAddr2 : BitVec 64 := 0
  pendingFlags : BitVec 32 := 0
  traced : Bool := false
  cachedCwd : Str := []
  cachedCmdline : Str := []
  userTimeUs : Int := 0
  sysTimeUs : Int := 0
  peakRssKb : Int := 0
  ioReadBytes : Int := 0
  ioWriteBytes : Int := 0
  deriving DecidableEq, Repr

/-- A new entry of `procs_`. -/
def ProcessState.registered (pid ppid : Int) (cwd cmdline : Str) : ProcessState :=
  { pid := pid, ppid := ppid, cachedCwd := cwd, cachedCmdline := cmdline }

/-- What ptrace, `/proc` and the clock answer while a task is stopped. `regs` is `none` when
PTRACE_GETREGS fails. -/
structure TraceeView where
  regs : Option Regs := none
  string : BitVec 64 → Str := fun _ => []
  cwd : Str := []
  exe : Str := []
  cmdline : Str := []
  now : Int := 0

/-! ### Paths -/

/-- `should_filter_path`; the last comparison is of four characters with five. -/
def shouldFilterPath (path : Str) : Bool :=
  decide (path.length < 2) || path.take 5 == "/dev/".toList || path.take 6 == "/proc/".toList ||
    path.take 4 == "/sys/".toList

/-- The scan that looks for `.`, `..` or an empty component. -/
def needsNormalize : Bool → Str → Bool
  | _, [] => false
  | atStart, '.' :: rest =>
    (atStart && (match rest with
      | [] | '/' :: _ | ['.'] | '.' :: '/' :: _ => true
      | _ => false)) || needsNormalize false rest
  | _, '/' :: rest => rest.head? == some '/' || needsNormalize true rest
  | _, _ :: rest => needsNormalize false rest

/-- One component of a path; `parts` holds the last one first. -/
def pushComponent (absolute : Bool) (parts : List Str) (comp : Str) : List Str :=
  if comp = [] ∨ comp = ['.'] then parts
  else if comp = ['.', '.'] then
    match parts with
    | last :: rest => if last = ['.', '.'] then (if absolute then parts else comp :: parts) else rest
    | [] => if absolute then [] else [comp]
  else comp :: parts

/-- `normalize_path` after its fast path. -/
def splitAndRejoin (path : Str) : Str :=
  let absolute := path.head? == some '/'
  let parts := ((path.splitOn '/').foldl (pushComponent absolute) []).reverse
  let result := (if absolute then ['/'] else []) ++ ['/'].intercalate parts
  if result = [] then ['.'] else result

def normalizePath (path : Str) : Str := if needsNormalize true path then splitAndRejoin path else path

/-- `resolve_path_cached`: a relative path is taken from the cached working directory, which is read
when it is not cached. -/
def resolvePathCached (view : TraceeView) (ps : ProcessState) (path : Str) : ProcessState × Str :=
  match path with
  | [] => (ps, path)
  | '/' :: _ => (ps, normalizePath path)
  | _ =>
    let ps := if ps.cachedCwd = [] then { ps with cachedCwd := view.cwd } else ps
    (ps, if ps.cachedCwd = [] then path else normalizePath (ps.cachedCwd ++ '/' :: path))

def readString (view : TraceeView) (addr : BitVec 64) : Str := if addr = 0 then [] else view.string addr

/-! ### Recording -/

/-- The path of a record, or `none` when it is filtered. -/
def recordedPath (view : TraceeView) (ps : ProcessState) (addr : BitVec 64) : ProcessState × Option Str :=
  let path := readString view addr
  if path = [] ∨ shouldFilterPath path then (ps, none)
  else
    let resolved := resolvePathCached view ps path
    (resolved.1, if shouldFilterPath resolved.2 then none else some resolved.2)

def recordAccess (view : TraceeView) (pid : Int) (ps : ProcessState) (addr : BitVec 64)
    (mode : FileAccessMode) (fd : Int) : ProcessState × List SessionCall :=
  let found := recordedPath view ps addr
  (found.1, (found.2.map fun path =>
    .fileAccess { pid := pid, filename := path, mode := mode, fd := fd, timestampUs := view.now }).toList)

def recordFailedAccess (view : TraceeView) (pid : Int) (ps : ProcessState) (addr : BitVec 64)
    (mode : FileAccessMode) (errnoVal : Int) : ProcessState × List SessionCall :=
  let found := recordedPath view ps addr
  (found.1, (found.2.map fun path =>
    .failedAccess { pid := pid, filename := path, mode := mode, errnoVal := errnoVal, timestampUs := view.now }).toList)

/-! ### Entry -/

/-- Open flags of `creat`. -/
def creatFlags : BitVec 32 := 0x241

/-- The addresses and flags that `decode_syscall_entry` saves for a system call. -/
def entryArgs (regs : Regs) (nr : BitVec 64) : BitVec 64 × BitVec 64 × BitVec 32 :=
  if nr = sysOpen then (regs.rdi, 0, regs.rsi.truncate 32)
  else if nr = sysOpenat ∨ nr = sysOpenat2 then (regs.rsi, 0, regs.rdx.truncate 32)
  else if nr = sysCreat then (regs.rdi, 0, creatFlags)
  else if nr ∈ [sysStat, sysLstat, sysAccess, sysChdir, sysUnlink, sysMkdir, sysChmod, sysChown, sysReadlink,
      sysTruncate, sysMknod, sysExecve] then (regs.rdi, 0, 0)
  else if nr ∈ [sysNewfstatat, sysFaccessat, sysFaccessat2, sysUnlinkat, sysMkdirat, sysFchmodat, sysFchownat,
      sysReadlinkat, sysUtimensat, sysMknodat, sysExecveat, sysStatx] then (regs.rsi, 0, 0)
  else if nr = sysRename ∨ nr = sysLink ∨ nr = sysSymlink then (regs.rdi, regs.rsi, 0)
  else if nr = sysRenameat ∨ nr = sysRenameat2 then (regs.rsi, regs.r10, 0)
  else if nr = sysLinkat then (regs.rsi, regs.r10, 0)
  else if nr = sysSymlinkat then (regs.rdi, regs.rdx, 0)
  else (0, 0, 0)

def decodeSyscallEntry (ps : ProcessState) (regs : Regs) (nr : BitVec 64) : ProcessState :=
  { ps with
    pendingSyscall := nr
    pendingPathAddr := (entryArgs regs nr).1
    pendingPathAddr2 := (entryArgs regs nr).2.1
    pendingFlags := (entryArgs regs nr).2.2
    exitNeeded := decide ((entryArgs regs nr).1 ≠ 0) || decide (nr = sysFchdir) }

/-- clone, fork, vfork and clone3. -/
def Regs.forks (regs : Regs) : Bool := decide (regs.origRax ∈ ([56, 57, 58, 435] : List (BitVec 64)))

/-! ### Exit -/

def openMode (flags : BitVec 32) : FileAccessMode :=
  if flags &&& 3 = 0 then .read else if flags &&& 3 = 1 then .write else .rdwr

/-- Success and failure both recorded: the open, stat and access families. -/
def recordEither (view : TraceeView) (pid : Int) (ps : ProcessState) (mode : FileAccessMode) (rax : BitVec 64)
    (fd : Int) : ProcessState × List SessionCall :=
  if ps.pendingPathAddr = 0 then (ps, [])
  else if 0 ≤ rax.toInt then recordAccess view pid ps ps.pendingPathAddr mode fd
  else recordFailedAccess view pid ps ps.pendingPathAddr mode ((-rax).truncate 32).toInt

/-- A path argument that was given. -/
def recordGiven (view : TraceeView) (pid : Int) (ps : ProcessState) (addr : BitVec 64) (mode : FileAccessMode) :
    ProcessState × List SessionCall :=
  if addr ≠ 0 then recordAccess view pid ps addr mode (-1) else (ps, [])

/-- Success recorded, with one path. -/
def recordOne (view : TraceeView) (pid : Int) (ps : ProcessState) (mode : FileAccessMode) (rax : BitVec 64) :
    ProcessState × List SessionCall :=
  if 0 ≤ rax.toInt then recordGiven view pid ps ps.pendingPathAddr mode else (ps, [])

/-- Success recorded, with two paths. -/
def recordTwo (view : TraceeView) (pid : Int) (ps : ProcessState) (src dst : FileAccessMode) (rax : BitVec 64) :
    ProcessState × List SessionCall :=
  if 0 ≤ rax.toInt then
    let first := recordGiven view pid ps ps.pendingPathAddr src
    let second := recordGiven view pid first.1 ps.pendingPathAddr2 dst
    (second.1, first.2 ++ second.2)
  else (ps, [])

/-- The chain of cases at a syscall exit. -/
def recordExit (view : TraceeView) (pid : Int) (ps : ProcessState) (rax : BitVec 64) :
    ProcessState × List SessionCall :=
  let sc := ps.pendingSyscall
  if sc = sysOpen ∨ sc = sysOpenat ∨ sc = sysOpenat2 ∨ sc = sysCreat then
    recordEither view pid ps (openMode ps.pendingFlags) rax (rax.truncate 32).toInt
  else if sc = sysStat ∨ sc = sysLstat ∨ sc = sysNewfstatat ∨ sc = sysStatx then
    recordEither view pid ps .stat rax (-1)
  else if sc = sysAccess ∨ sc = sysFaccessat ∨ sc = sysFaccessat2 then
    recordEither view pid ps .access rax (-1)
  else if sc = sysExecve ∨ sc = sysExecveat then
    if rax.toInt < 0 ∧ ps.pendingPathAddr ≠ 0 then recordAccess view pid ps ps.pendingPathAddr .exec (-1)
    else (ps, [])
  else if sc = sysUnlink ∨ sc = sysUnlinkat then recordOne view pid ps .unlink rax
  else if sc = sysRename ∨ sc = sysRenameat ∨ sc = sysRenameat2 then recordTwo view pid ps .renameSrc .renameDst rax
  else if sc = sysLink ∨ sc = sysLinkat then recordTwo view pid ps .linkSrc .linkDst rax
  else if sc = sysSymlink ∨ sc = sysSymlinkat then recordTwo view pid ps .symlinkTarget .symlinkLink rax
  else if sc = sysReadlink ∨ sc = sysReadlinkat then recordOne view pid ps .readlink rax
  else if sc = sysMkdir ∨ sc = sysMkdirat then recordOne view pid ps .mkdir rax
  else if sc = sysChmod ∨ sc = sysFchmodat then recordOne view pid ps .chmod rax
  else if sc = sysChown ∨ sc = sysFchownat then recordOne view pid ps .chown rax
  else if sc = sysTruncate then recordOne view pid ps .truncate rax
  else if sc = sysMknod ∨ sc = sysMknodat then recordOne view pid ps .mknod rax
  else if sc = sysUtimensat then recordOne view pid ps .utimens rax
  else if sc = sysChdir then
    if 0 ≤ rax.toInt ∧ ps.pendingPathAddr ≠ 0 then
      let recorded := recordAccess view pid ps ps.pendingPathAddr .chdir (-1)
      ({ recorded.1 with cachedCwd := view.cwd }, recorded.2)
    else (ps, [])
  else if sc = sysFchdir then
    if 0 ≤ rax.toInt then
      ({ ps with cachedCwd := view.cwd },
        if view.cwd = [] ∨ shouldFilterPath view.cwd then []
        else [.fileAccess { pid := pid, filename := view.cwd, mode := .chdir, fd := -1, timestampUs := view.now }])
    else (ps, [])
  else (ps, [])

private theorem ite_form {α β γ : Type} {P : (α → β → γ) → Prop} {p : Prop} [Decidable p] {f g : α → β → γ}
    (hf : P f) (hg : P g) : P (fun v cwd => if p then f v cwd else g v cwd) := by
  by_cases h : p
  · simpa only [h, if_true] using hf
  · simpa only [h, if_false] using hg

/-- The forms that the chain can take: which one is taken depends neither on the view nor on the cached
directory. -/
theorem recordExit_cwd_forms {pid : Int} {ps : ProcessState} {rax : BitVec 64}
    {P : (TraceeView → Str → ProcessState × List SessionCall) → Prop}
    (skip : P fun _ cwd => ({ ps with cachedCwd := cwd }, []))
    (either : ∀ mode fd, P fun v cwd => recordEither v pid { ps with cachedCwd := cwd } mode rax fd)
    (one : ∀ mode, P fun v cwd => recordOne v pid { ps with cachedCwd := cwd } mode rax)
    (two : ∀ src dst, P fun v cwd => recordTwo v pid { ps with cachedCwd := cwd } src dst rax)
    (failedExec : P fun v cwd => recordAccess v pid { ps with cachedCwd := cwd } ps.pendingPathAddr .exec (-1))
    (chdir : P fun v cwd =>
      ({ (recordAccess v pid { ps with cachedCwd := cwd } ps.pendingPathAddr .chdir (-1)).1 with cachedCwd := v.cwd },
        (recordAccess v pid { ps with cachedCwd := cwd } ps.pendingPathAddr .chdir (-1)).2))
    (fchdir : P fun v _ => ({ ps with cachedCwd := v.cwd },
      if v.cwd = [] ∨ shouldFilterPath v.cwd then []
      else [.fileAccess { pid := pid, filename := v.cwd, mode := .chdir, fd := -1, timestampUs := v.now }])) :
    P fun v cwd => recordExit v pid { ps with cachedCwd := cwd } rax := by
  simp only [recordExit]
  refine ite_form (either _ _) ?_
  refine ite_form (either _ _) ?_
  refine ite_form (either _ _) ?_
  refine ite_form (ite_form failedExec skip) ?_
  refine ite_form (one _) ?_
  refine ite_form (two _ _) ?_
  refine ite_form (two _ _) ?_
  refine ite_form (two _ _) ?_
  refine ite_form (one _) ?_
  refine ite_form (one _) ?_
  refine ite_form (one _) ?_
  refine ite_form (one _) ?_
  refine ite_form (one _) ?_
  refine ite_form (one _) ?_
  refine ite_form (one _) ?_
  refine ite_form (ite_form chdir skip) ?_
  exact ite_form (ite_form fchdir skip) skip

theorem recordExit_forms {pid : Int} {ps : ProcessState} {rax : BitVec 64}
    {P : (TraceeView → ProcessState × List SessionCall) → Prop} (skip : P fun _ => (ps, []))
    (either : ∀ mode fd, P fun v => recordEither v pid ps mode rax fd)
    (one : ∀ mode, P fun v => recordOne v pid ps mode rax)
    (two : ∀ src dst, P fun v => recordTwo v pid ps src dst rax)
    (failedExec : P fun v => recordAccess v pid ps ps.pendingPathAddr .exec (-1))
    (chdir : P fun v => ({ (recordAccess v pid ps ps.pendingPathAddr .chdir (-1)).1 with cachedCwd := v.cwd },
      (recordAccess v pid ps ps.pendingPathAddr .chdir (-1)).2))
    (fchdir : P fun v => ({ ps with cachedCwd := v.cwd },
      if v.cwd = [] ∨ shouldFilterPath v.cwd then []
      else [.fileAccess { pid := pid, filename := v.cwd, mode := .chdir, fd := -1, timestampUs := v.now }])) :
    P fun v => recordExit v pid ps rax :=
  recordExit_cwd_forms (P := fun f => P fun v => f v ps.cachedCwd) skip either one two failedExec chdir fchdir

/-- An exit stop without a call that was entered. -/
theorem recordExit_none {view : TraceeView} {pid : Int} {ps : ProcessState} (h : ps.pendingSyscall = -1)
    (rax : BitVec 64) :
    recordExit view pid ps rax = (ps, []) := by
  simp only [recordExit, h]
  rfl

theorem recordExit_fchdir {view : TraceeView} {pid : Int} {ps : ProcessState} {rax : BitVec 64}
    (h : ps.pendingSyscall = sysFchdir) (hrax : 0 ≤ rax.toInt) :
    recordExit view pid ps rax = ({ ps with cachedCwd := view.cwd },
      if view.cwd = [] ∨ shouldFilterPath view.cwd then []
      else [.fileAccess { pid := pid, filename := view.cwd, mode := .chdir, fd := -1, timestampUs := view.now }]) := by
  simp only [recordExit, h, hrax]
  rfl

/-- An access of the process with kernel pid `pid`. -/
def SessionCall.AccessOf (pid : Int) : SessionCall → Prop
  | .fileAccess rec => rec.pid = pid
  | .failedAccess rec => rec.pid = pid
  | _ => False

/-- Recording changes nothing but the cached working directory and calls only for accesses of the task. -/
structure Records (pid : Int) (ps : ProcessState) (r : ProcessState × List SessionCall) : Prop where
  frame : r.1 = { ps with cachedCwd := r.1.cachedCwd }
  accesses : ∀ c ∈ r.2, c.AccessOf pid

section
variable (view : TraceeView) (pid : Int) (ps : ProcessState)

private theorem records_skip : Records pid ps (ps, []) := ⟨rfl, fun _ hc => (by cases hc)⟩

private theorem resolvePathCached_frame (path : Str) : (resolvePathCached view ps path).1 =
    { ps with cachedCwd := (resolvePathCached view ps path).1.cachedCwd } := by
  simp only [resolvePathCached]
  split
  · rfl
  · rfl
  · split <;> rfl

private theorem recordedPath_frame (addr : BitVec 64) :
    (recordedPath view ps addr).1 = { ps with cachedCwd := (recordedPath view ps addr).1.cachedCwd } := by
  simp only [recordedPath]
  split
  · rfl
  · exact resolvePathCached_frame view ps _

private theorem recordAccess_records (addr : BitVec 64) (mode : FileAccessMode) (fd : Int) :
    Records pid ps (recordAccess view pid ps addr mode fd) := by
  refine ⟨recordedPath_frame view ps addr, fun c hc => ?_⟩
  obtain ⟨path, -, rfl⟩ := Option.map_eq_some_iff.mp (Option.mem_toList.mp hc)
  rfl

private theorem recordFailedAccess_records (addr : BitVec 64) (mode : FileAccessMode) (e : Int) :
    Records pid ps (recordFailedAccess view pid ps addr mode e) := by
  refine ⟨recordedPath_frame view ps addr, fun c hc => ?_⟩
  obtain ⟨path, -, rfl⟩ := Option.map_eq_some_iff.mp (Option.mem_toList.mp hc)
  rfl

theorem recordGiven_records (addr : BitVec 64) (mode : FileAccessMode) :
    Records pid ps (recordGiven view pid ps addr mode) := by
  simp only [recordGiven]
  split
  · exact recordAccess_records view pid ps addr mode (-1)
  · exact records_skip pid ps

theorem recordExit_records (rax : BitVec 64) : Records pid ps (recordExit view pid ps rax) := by
  have h : ∀ v, Records pid ps (recordExit v pid ps rax) := by
    refine recordExit_forms (P := fun f => ∀ v, Records pid ps (f v)) ?_ ?_ ?_ ?_ ?_ ?_ ?_
    · exact fun _ => records_skip pid ps
    · intro mode fd v
      simp only [recordEither]
      split
      · exact records_skip pid ps
      · split
        · exact recordAccess_records v pid ps _ mode fd
        · exact recordFailedAccess_records v pid ps _ mode _
    · intro mode v
      simp only [recordOne]
      split
      · exact recordGiven_records v pid ps _ mode
      · exact records_skip pid ps
    · intro src dst v
      simp only [recordTwo]
      split
      · have hsrc := recordGiven_records v pid ps ps.pendingPathAddr src
        have hdst := recordGiven_records v pid (recordGiven v pid ps ps.pendingPathAddr src).1 ps.pendingPathAddr2 dst
        refine ⟨?_, fun c hc => (List.mem_append.mp hc).elim (hsrc.accesses c) (hdst.accesses c)⟩
        calc _ = _ := hdst.frame
          _ = _ := by rw [hsrc.frame]
      · exact records_skip pid ps
    · exact fun v => recordAccess_records v pid ps _ _ _
    · intro v
      have hchdir := recordAccess_records v pid ps ps.pendingPathAddr .chdir (-1)
      refine ⟨?_, hchdir.accesses⟩
      simp only
      rw [hchdir.frame]
    · intro v
      refine ⟨rfl, fun c hc => ?_⟩
      simp only at hc
      split at hc
      · cases hc
      · rw [List.mem_singleton.mp hc]
        rfl
  exact h view

end

/-! ### The stops -/

/-- Which part of `handle_syscall_stop` a stop with readable registers runs. -/
inductive StopBranch where
  | skipped | entry | exit
  deriving DecidableEq, Repr

def stopBranch (ps : ProcessState) (regs : Regs) : StopBranch :=
  if ps.scPhase = .exitNext ∧ ps.exitNeeded = false then .skipped
  else if regs.rax.toInt = -enosys then .entry
  else .exit

def handleSyscallStop (view : TraceeView) (pid : Int) (ps : ProcessState) : ProcessState × List SessionCall :=
  -- the exit stop of a syscall that is not recorded needs no registers
  if ps.scPhase = .exitNext ∧ ps.exitNeeded = false then
    ({ ps with scPhase := .entryNext, pendingSyscall := -1 }, [])
  else
    match view.regs with
    | none => (ps, [])
    | some regs =>
      match stopBranch ps regs with
      | .entry => (decodeSyscallEntry { ps with scPhase := .exitNext } regs regs.origRax, [])
      | _ =>
        let recorded := recordExit view pid { ps with scPhase := .entryNext } regs.rax
        ({ recorded.1 with pendingSyscall := -1, pendingPathAddr := 0, pendingPathAddr2 := 0, exitNeeded := false },
          recorded.2)

/-- The two ways to restart a stopped task. -/
inductive Restart where
  | cont | syscall
  deriving DecidableEq, Repr

def handleSeccompStop (view : TraceeView) (ps : ProcessState) : ProcessState × Restart :=
  match view.regs with
  | none => (ps, .cont)
  | some regs =>
    let ps := decodeSyscallEntry ps regs regs.origRax
    if ps.exitNeeded then ({ ps with scPhase := .exitNext }, .syscall)
    else ({ ps with scPhase := .entryNext, pendingSyscall := -1 }, .cont)

/-- `resume`: seccomp and procs-only modes continue, classic mode asks for every syscall stop. -/
def resumeRequest (procsOnly seccompMode : Bool) : Restart := if procsOnly || seccompMode then .cont else .syscall

/-- The access that `handle_exec_event` records for the new image. -/
def execAccess (view : TraceeView) (pid : Int) : List SessionCall :=
  if view.exe = [] ∨ shouldFilterPath view.exe then []
  else [.fileAccess { pid := pid, filename := view.exe, mode := .exec, fd := -1, timestampUs := view.now }]

def handleExecEvent (view : TraceeView) (pid : Int) (ps : ProcessState) : ProcessState × List SessionCall :=
  ({ ps with
      pendingSyscall := -1, pendingPathAddr := 0, pendingPathAddr2 := 0
      -- the exit stop of the execve that got here has nothing to inspect
      exitNeeded := false
      cachedCwd := view.cwd, cachedCmdline := view.cmdline },
    execAccess view pid ++
      [.deleteProcess pid,
        .processStart { pid := pid, ppid := ps.ppid, cwd := view.cwd, cmdline := view.cmdline
                        startTimeUs := view.now }])

end Bdtrace
