import Bdtrace.Tracer.OpenModes

/-! The name that is recorded for each path argument of a system call: which directory a relative path is
taken from. -/
namespace Bdtrace

/-- A path argument, with the directory descriptor that goes with it. -/
structure PathArg where
  addr : BitVec 64
  dir : Option (BitVec 64) := none
  deriving DecidableEq, Repr

/-- The path arguments of a system call as the kernel has them. -/
def pathArgs (regs : Regs) : List PathArg :=
  if [sysOpen, sysCreat, sysStat, sysLstat, sysAccess, sysChdir, sysUnlink, sysMkdir, sysChmod, sysChown, sysReadlink,
      sysTruncate, sysMknod, sysExecve].contains regs.origRax then [{ addr := regs.rdi }]
  else if [sysOpenat, sysOpenat2, sysNewfstatat, sysFaccessat, sysFaccessat2, sysUnlinkat, sysMkdirat, sysFchmodat,
      sysFchownat, sysReadlinkat, sysUtimensat, sysMknodat, sysExecveat, sysStatx].contains regs.origRax then
    [{ addr := regs.rsi, dir := some regs.rdi }]
  else if [sysRename, sysLink, sysSymlink].contains regs.origRax then [{ addr := regs.rdi }, { addr := regs.rsi }]
  else if [sysRenameat, sysRenameat2, sysLinkat].contains regs.origRax then
    [{ addr := regs.rsi, dir := some regs.rdi }, { addr := regs.r10, dir := some regs.rdx }]
  -- the target of a symbolic link has no descriptor
  else if regs.origRax = sysSymlinkat then [{ addr := regs.rdi }, { addr := regs.rdx, dir := some regs.rsi }]
  else []

/-- Which of the path arguments an access is about. -/
def FileAccessMode.argument : FileAccessMode → Nat
  | .renameDst | .linkDst | .symlinkLink => 1
  | _ => 0

def SessionCall.filename : SessionCall → Option Str
  | .fileAccess rec => some rec.filename
  | .failedAccess rec => some rec.filename
  | _ => none

/-- The saved address of an argument. -/
def ProcessState.pathAddr (ps : ProcessState) (i : Nat) : BitVec 64 :=
  if i = 0 then ps.pendingPathAddr else ps.pendingPathAddr2

/-- The access is recorded with the mode and with the name that the address gives. -/
def NamedBy (view : TraceeView) (ps : ProcessState) (addr : BitVec 64) (mode : FileAccessMode) (call : SessionCall) :
    Prop :=
  call.mode = some mode ∧ ∃ name, call.filename = some name ∧ (recordedPath view ps addr).2 = some name

private theorem resolvePathCached_lookup (view : TraceeView) (ps : ProcessState) (path : Str) :
    lookupCwd view (resolvePathCached view ps path).1 = lookupCwd view ps := by
  simp only [resolvePathCached]
  split
  · rfl
  · rfl
  · by_cases hcached : ps.cachedCwd = []
    · rw [if_pos hcached, lookupCwd, lookupCwd, if_pos hcached, ite_self]
    · rw [if_neg hcached]

private theorem recordedPath_some {view : TraceeView} {ps : ProcessState} {addr : BitVec 64} {name : Str}
    (h : (recordedPath view ps addr).2 = some name) :
    readString view addr ≠ [] ∧ name = (resolvePathCached view ps (readString view addr)).2 := by
  simp only [recordedPath] at h
  split at h
  · cases h
  · rename_i hkept
    split at h
    · cases h
    · exact ⟨fun hnil => hkept (.inl hnil), (Option.some.inj h).symm⟩

section
variable {view : TraceeView} {pid : Int} {ps : ProcessState} {addr ret : BitVec 64} {mode : FileAccessMode}

private theorem recordAccess_named {fd : Int} :
    ∀ call ∈ (recordAccess view pid ps addr mode fd).2, NamedBy view ps addr mode call := by
  intro call hcall
  obtain ⟨name, hname, rfl⟩ := Option.map_eq_some_iff.mp (Option.mem_toList.mp hcall)
  exact ⟨rfl, name, rfl, hname⟩

private theorem recordFailedAccess_named {e : Int} :
    ∀ call ∈ (recordFailedAccess view pid ps addr mode e).2, NamedBy view ps addr mode call := by
  intro call hcall
  obtain ⟨name, hname, rfl⟩ := Option.map_eq_some_iff.mp (Option.mem_toList.mp hcall)
  exact ⟨rfl, name, rfl, hname⟩

private theorem recordGiven_named : ∀ call ∈ (recordGiven view pid ps addr mode).2, NamedBy view ps addr mode call := by
  intro call hcall
  rw [recordGiven] at hcall
  split at hcall
  · exact recordAccess_named call hcall
  · cases hcall

private theorem recordEither_named {fd : Int} :
    ∀ call ∈ (recordEither view pid ps mode ret fd).2, NamedBy view ps ps.pendingPathAddr mode call := by
  intro call hcall
  rw [recordEither] at hcall
  split at hcall
  · cases hcall
  · split at hcall
    · exact recordAccess_named call hcall
    · exact recordFailedAccess_named call hcall

private theorem recordOne_named :
    ∀ call ∈ (recordOne view pid ps mode ret).2, NamedBy view ps ps.pendingPathAddr mode call := by
  intro call hcall
  rw [recordOne] at hcall
  split at hcall
  · exact recordGiven_named call hcall
  · cases hcall

/-- Recording one path leaves the directory for the next. -/
private theorem recordGiven_lookup : lookupCwd view (recordGiven view pid ps addr mode).1 = lookupCwd view ps := by
  rw [recordGiven]
  split
  · rw [recordAccess, recordedPath]
    split
    · rfl
    · exact resolvePathCached_lookup view ps _
  · rfl

private theorem recordTwo_named {src dst : FileAccessMode} : ∀ call ∈ (recordTwo view pid ps src dst ret).2,
    NamedBy view ps ps.pendingPathAddr src call ∨ NamedBy view ps ps.pendingPathAddr2 dst call := by
  intro call hcall
  rw [recordTwo] at hcall
  split at hcall
  · refine (List.mem_append.mp hcall).imp (recordGiven_named call) fun hsecond => ?_
    obtain ⟨hmode, name, hfilename, hname⟩ := recordGiven_named call hsecond
    exact ⟨hmode, name, hfilename, hname ▸ (recordedPath_lookup recordGiven_lookup _).symm⟩
  · cases hcall

/-- Each call has the name of the argument that its mode is about. -/
def AllNamed (view : TraceeView) (ps : ProcessState) (recorded : ProcessState × List SessionCall) : Prop :=
  ∀ call ∈ recorded.2, ∃ mode, NamedBy view ps (ps.pathAddr mode.argument) mode call

private theorem allNamed_skip : AllNamed view ps (ps, []) := fun _ hcall => by cases hcall

private theorem allNamed_first (harg : mode.argument = 0) {recorded : ProcessState × List SessionCall}
    (h : ∀ call ∈ recorded.2, NamedBy view ps ps.pendingPathAddr mode call) : AllNamed view ps recorded :=
  fun call hcall => ⟨mode, by rw [harg]; exact h call hcall⟩

private theorem allNamed_two {src dst : FileAccessMode} (hsrc : src.argument = 0) (hdst : dst.argument = 1) :
    AllNamed view ps (recordTwo view pid ps src dst ret) := fun call hcall =>
  (recordTwo_named call hcall).elim (fun h => ⟨src, by rwa [hsrc]⟩) fun h => ⟨dst, by rwa [hdst]⟩

private theorem allNamed_ite {p : Prop} [Decidable p] {a b : ProcessState × List SessionCall}
    (ha : p → AllNamed view ps a)
    (hb : ¬p → AllNamed view ps b) : AllNamed view ps (if p then a else b) := by
  split
  · exact ha (by assumption)
  · exact hb (by assumption)

private theorem openMode_argument (flags : BitVec 32) : (openMode flags).argument = 0 := by
  rw [openMode]
  split
  · rfl
  · split <;> rfl

private theorem recordExit_named (hfchdir : ps.pendingSyscall ≠ sysFchdir) :
    AllNamed view ps (recordExit view pid ps ret) := by
  rw [recordExit]
  refine allNamed_ite (fun _ => allNamed_first (openMode_argument _) recordEither_named) fun _ => ?_
  refine allNamed_ite (fun _ => allNamed_first rfl recordEither_named) fun _ => ?_
  refine allNamed_ite (fun _ => allNamed_first rfl recordEither_named) fun _ => ?_
  refine allNamed_ite (fun _ => allNamed_ite (fun _ => allNamed_first rfl recordAccess_named) fun _ =>
    allNamed_skip) fun _ => ?_
  refine allNamed_ite (fun _ => allNamed_first rfl recordOne_named) fun _ => ?_
  iterate 3 refine allNamed_ite (fun _ => allNamed_two rfl rfl) fun _ => ?_
  iterate 7 refine allNamed_ite (fun _ => allNamed_first rfl recordOne_named) fun _ => ?_
  refine allNamed_ite (fun _ => allNamed_ite (fun _ => allNamed_first rfl recordAccess_named) fun _ =>
    allNamed_skip) fun _ => ?_
  exact allNamed_ite (fun h => absurd h hfchdir) fun _ => allNamed_skip

end

/-! ### What is not left out -/

/-- Some call has the name of the argument at position `i`. -/
def Tells (i : Nat) (name : Str) (calls : List SessionCall) : Prop :=
  ∃ call ∈ calls, ∃ mode, call.mode = some mode ∧ mode.argument = i ∧ call.filename = some name

/-- The results with which the paths of a call are recorded: the open, stat and access families whatever comes of it, an
exec when it fails, and the others when they succeed. -/
def Reported (nr ret : BitVec 64) : Prop :=
  ret.toInt ≠ -enosys ∧ (nr ∈ execFamily → ret.toInt < 0) ∧
    (nr ∉ openFamily ++ statFamily ++ accessFamily ++ execFamily → 0 ≤ ret.toInt)

/-- The calls with two path arguments. -/
def twoPathCalls : List (BitVec 64) :=
  [sysRename, sysRenameat, sysRenameat2, sysLink, sysLinkat, sysSymlink, sysSymlinkat]

private theorem twoPathCalls_separate :
    ∀ nr ∈ twoPathCalls, nr ∉ openFamily ++ statFamily ++ accessFamily ++ execFamily := by
  intro nr h
  simp only [twoPathCalls, List.mem_cons, List.not_mem_nil, or_false] at h
  rcases h with rfl | rfl | rfl | rfl | rfl | rfl | rfl
  all_goals decide

section
variable {view : TraceeView} {pid : Int} {ps : ProcessState} {addr ret : BitVec 64} {name : Str}

private theorem recordAccess_tells (mode : FileAccessMode) (h : (recordedPath view ps addr).2 = some name) (fd : Int) :
    Tells mode.argument name (recordAccess view pid ps addr mode fd).2 := by
  rw [recordAccess_recorded h]
  exact ⟨_, List.mem_singleton_self _, mode, rfl, rfl, rfl⟩

private theorem recordGiven_tells (mode : FileAccessMode) (h : (recordedPath view ps addr).2 = some name) :
    Tells mode.argument name (recordGiven view pid ps addr mode).2 := by
  rw [recordGiven, if_pos (addr_of_recorded h)]
  exact recordAccess_tells mode h (-1)

private theorem recordEither_tells (mode : FileAccessMode) (h : (recordedPath view ps ps.pendingPathAddr).2 = some name)
    (fd : Int) :
    Tells mode.argument name (recordEither view pid ps mode ret fd).2 := by
  rw [recordEither, if_neg (addr_of_recorded h)]
  split
  · exact recordAccess_tells mode h fd
  · rw [recordFailedAccess_recorded h]
    exact ⟨_, List.mem_singleton_self _, mode, rfl, rfl, rfl⟩

private theorem recordOne_tells (mode : FileAccessMode) (h : (recordedPath view ps ps.pendingPathAddr).2 = some name)
    (hret : 0 ≤ ret.toInt) :
    Tells mode.argument name (recordOne view pid ps mode ret).2 := by
  rw [recordOne, if_pos hret]
  exact recordGiven_tells mode h

theorem Tells.ne_nil {i : Nat} {calls : List SessionCall} (h : Tells i name calls) : calls ≠ [] := by
  obtain ⟨call, hcall, -⟩ := h
  exact List.ne_nil_of_mem hcall

theorem Tells.append_left {i : Nat} {calls : List SessionCall} (h : Tells i name calls) (more : List SessionCall) :
    Tells i name (calls ++ more) := by
  obtain ⟨call, hcall, hrest⟩ := h
  exact ⟨call, List.mem_append_left _ hcall, hrest⟩

theorem Tells.append_right {i : Nat} {calls : List SessionCall} (h : Tells i name calls) (more : List SessionCall) :
    Tells i name (more ++ calls) := by
  obtain ⟨call, hcall, hrest⟩ := h
  exact ⟨call, List.mem_append_right _ hcall, hrest⟩

private theorem recordTwo_tells (mode dst : FileAccessMode)
    (h : (recordedPath view ps ps.pendingPathAddr).2 = some name)
    (hret : 0 ≤ ret.toInt) : Tells mode.argument name (recordTwo view pid ps mode dst ret).2 := by
  rw [recordTwo, if_pos hret]
  exact (recordGiven_tells mode h).append_left _

/-- The directory is the same for the second path. -/
private theorem recordTwo_tells_second (src mode : FileAccessMode)
    (h : (recordedPath view ps ps.pendingPathAddr2).2 = some name)
    (hret : 0 ≤ ret.toInt) : Tells mode.argument name (recordTwo view pid ps src mode ret).2 := by
  rw [recordTwo, if_pos hret]
  exact (recordGiven_tells mode ((recordedPath_lookup recordGiven_lookup _).trans h)).append_right _

private theorem tells_ite {p : Prop} [Decidable p] {i : Nat} {f g : ProcessState × List SessionCall}
    (hf : p → Tells i name f.2)
    (hg : ¬p → Tells i name g.2) : Tells i name (if p then f else g).2 := by
  by_cases h : p
  · rw [if_pos h]
    exact hf h
  · rw [if_neg h]
    exact hg h

/-- The first path of every call of the table is told. -/
theorem recordExit_tells (h : (recordedPath view ps ps.pendingPathAddr).2 = some name)
    (hmem : ps.pendingSyscall ∈ tracedSyscalls) (hfchdir : ps.pendingSyscall ≠ sysFchdir)
    (hret : Reported ps.pendingSyscall ret) : Tells 0 name (recordExit view pid ps ret).2 := by
  obtain ⟨-, hfails, hreturns⟩ := hret
  rw [recordExit]
  refine tells_ite (fun _ => openMode_argument ps.pendingFlags ▸ recordEither_tells _ h _) fun hopen => ?_
  refine tells_ite (fun _ => recordEither_tells .stat h _) fun hstat => ?_
  refine tells_ite (fun _ => recordEither_tells .access h _) fun haccess => ?_
  refine tells_ite (fun hexec => ?_) fun hexec => ?_
  · have hneg := hfails (by simpa [execFamily] using hexec)
    rw [if_pos ⟨hneg, addr_of_recorded h⟩]
    exact recordAccess_tells .exec h _
  have hok : 0 ≤ ret.toInt := by
    apply hreturns
    simp only [openFamily, statFamily, accessFamily, execFamily, List.mem_append, List.mem_cons,
      List.not_mem_nil, or_false]
    tauto
  refine tells_ite (fun _ => recordOne_tells .unlink h hok) fun hunlink => ?_
  refine tells_ite (fun _ => recordTwo_tells .renameSrc _ h hok) fun hrename => ?_
  refine tells_ite (fun _ => recordTwo_tells .linkSrc _ h hok) fun hlink => ?_
  refine tells_ite (fun _ => recordTwo_tells .symlinkTarget _ h hok) fun hsymlink => ?_
  refine tells_ite (fun _ => recordOne_tells .readlink h hok) fun hreadlink => ?_
  refine tells_ite (fun _ => recordOne_tells .mkdir h hok) fun hmkdir => ?_
  refine tells_ite (fun _ => recordOne_tells .chmod h hok) fun hchmod => ?_
  refine tells_ite (fun _ => recordOne_tells .chown h hok) fun hchown => ?_
  refine tells_ite (fun _ => recordOne_tells .truncate h hok) fun htruncate => ?_
  refine tells_ite (fun _ => recordOne_tells .mknod h hok) fun hmknod => ?_
  refine tells_ite (fun _ => recordOne_tells .utimens h hok) fun hutimens => ?_
  refine tells_ite (fun _ => ?_) fun hchdir => ?_
  · rw [if_pos ⟨hok, addr_of_recorded h⟩]
    exact recordAccess_tells .chdir h _
  · -- the table has no other number
    simp only [not_or] at hopen hstat haccess hexec hunlink hrename hlink hsymlink hreadlink hmkdir hchmod hchown hmknod
    simp only [tracedSyscalls, List.mem_cons, List.not_mem_nil, hopen, hstat, haccess, hexec, hunlink, hrename, hlink,
      hsymlink, hreadlink, hmkdir, hchmod, hchown, htruncate, hmknod, hutimens, hchdir, hfchdir, or_self] at hmem

private theorem recordExit_two (h : ps.pendingSyscall ∈ twoPathCalls) : ∃ src dst : FileAccessMode, dst.argument = 1 ∧
    recordExit view pid ps ret = recordTwo view pid ps src dst ret := by
  simp only [twoPathCalls, List.mem_cons, List.not_mem_nil, or_false] at h
  rcases h with h | h | h | h | h | h | h
  all_goals
    simp only [recordExit, h]
    first
      | exact ⟨.renameSrc, .renameDst, rfl, rfl⟩
      | exact ⟨.linkSrc, .linkDst, rfl, rfl⟩
      | exact ⟨.symlinkTarget, .symlinkLink, rfl, rfl⟩

/-- The second path of the calls that have two is told. -/
private theorem recordExit_tells_second (h : (recordedPath view ps ps.pendingPathAddr2).2 = some name)
    (htwo : ps.pendingSyscall ∈ twoPathCalls) (hret : Reported ps.pendingSyscall ret) :
    Tells 1 name (recordExit view pid ps ret).2 := by
  have hok : 0 ≤ ret.toInt := hret.2.2 (twoPathCalls_separate _ htwo)
  obtain ⟨src, dst, hdst, hexit⟩ := @recordExit_two view pid ps ret htwo
  rw [hexit, ← hdst]
  exact recordTwo_tells_second src dst h hok

end

/-! ### The arguments of a call -/

/-- The addresses that are saved at the entry are those of the path arguments. -/
private theorem pathArgs_saved {regs : Regs} {i : Nat} (hi : i = 0 ∨ i = 1)
    (h : (if i = 0 then (entryArgs regs regs.origRax).1 else (entryArgs regs regs.origRax).2.1) ≠ 0) :
    ∃ arg, (pathArgs regs)[i]? = some arg ∧
      arg.addr = if i = 0 then (entryArgs regs regs.origRax).1 else (entryArgs regs regs.origRax).2.1 := by
  by_cases hnr : regs.origRax ∈ tracedSyscalls
  · obtain ⟨nr, rdi, rsi, rdx, r10, rax⟩ := regs
    simp only [tracedSyscalls, List.mem_cons, List.not_mem_nil, or_false] at hnr
    repeat' rcases hnr with rfl | hnr
    all_goals
      rcases hi with rfl | rfl
      all_goals first
        | exact ⟨_, rfl, rfl⟩
        | exact absurd rfl h
  · rw [(entryArgs_untraced regs hnr).1, ite_self] at h
    exact absurd rfl h

private theorem getElem?_one {a b : PathArg} {i : Nat} (h : [a][i]? = some b) : i = 0 ∧ a = b := by
  cases i with
  | zero => exact ⟨rfl, Option.some.inj h⟩
  | succ i => cases h

private theorem getElem?_two {a b c : PathArg} {i : Nat} (h : [a, b][i]? = some c) :
    (i = 0 ∧ a = c) ∨ (i = 1 ∧ b = c) := by
  cases i with
  | zero => exact .inl ⟨rfl, Option.some.inj h⟩
  | succ i =>
    obtain ⟨rfl, hc⟩ := getElem?_one h
    exact .inr ⟨rfl, hc⟩

/-- The path arguments are saved at the entry, the second one of the calls that have two. -/
private theorem saved_pathArgs {regs : Regs} {i : Nat} {arg : PathArg} (h : (pathArgs regs)[i]? = some arg) :
    (i = 0 ∧ arg.addr = (entryArgs regs regs.origRax).1) ∨
      (i = 1 ∧ arg.addr = (entryArgs regs regs.origRax).2.1 ∧ regs.origRax ∈ twoPathCalls) := by
  obtain ⟨nr, rdi, rsi, rdx, r10, rax⟩ := regs
  simp only [pathArgs, List.contains_iff_mem] at h
  split at h
  · rename_i hnr
    obtain ⟨rfl, rfl⟩ := getElem?_one h
    left
    simp only [List.mem_cons, List.not_mem_nil, or_false] at hnr
    repeat' rcases hnr with rfl | hnr
    all_goals exact ⟨rfl, rfl⟩
  split at h
  · rename_i hnr
    obtain ⟨rfl, rfl⟩ := getElem?_one h
    left
    simp only [List.mem_cons, List.not_mem_nil, or_false] at hnr
    repeat' rcases hnr with rfl | hnr
    all_goals exact ⟨rfl, rfl⟩
  split at h
  · rename_i hnr
    simp only [List.mem_cons, List.not_mem_nil, or_false] at hnr
    refine (getElem?_two h).imp (fun ⟨hi, harg⟩ => ⟨hi, ?_⟩) fun ⟨hi, harg⟩ => ⟨hi, ?_⟩
    all_goals
      subst harg
      rcases hnr with rfl | rfl | rfl
    any_goals rfl
    all_goals exact ⟨rfl, by simp [twoPathCalls]⟩
  split at h
  · rename_i hnr
    simp only [List.mem_cons, List.not_mem_nil, or_false] at hnr
    refine (getElem?_two h).imp (fun ⟨hi, harg⟩ => ⟨hi, ?_⟩) fun ⟨hi, harg⟩ => ⟨hi, ?_⟩
    all_goals
      subst harg
      rcases hnr with rfl | rfl | rfl
    any_goals rfl
    all_goals exact ⟨rfl, by simp [twoPathCalls]⟩
  split at h
  · rename_i hnr
    subst hnr
    refine (getElem?_two h).imp (fun ⟨hi, harg⟩ => ⟨hi, ?_⟩) fun ⟨hi, harg⟩ => ⟨hi, ?_⟩
    all_goals subst harg
    · rfl
    · exact ⟨rfl, by simp [twoPathCalls]⟩
  · cases h

/-- The tracer knows the directory of the task: it is cached, or nothing is cached and `/proc` shows it. -/
def KnowsCwd (view : TraceeView) (ps : ProcessState) (cwd : Str) : Prop :=
  ps.cachedCwd = cwd ∨ (ps.cachedCwd = [] ∧ view.cwd = cwd)

theorem KnowsCwd.lookup {view : TraceeView} {ps : ProcessState} {cwd : Str} (h : KnowsCwd view ps cwd)
    (hne : cwd ≠ []) :
    lookupCwd view ps = cwd := by
  rw [lookupCwd]
  rcases h with rfl | ⟨hnone, hcwd⟩
  · exact if_neg hne
  · rw [if_pos hnone, hcwd]

def atFdcwd : BitVec 32 := -100

/-- The directory from which the kernel looks an argument up; `dirOf` is what the descriptors refer to. -/
def kernelBase (cwd : Str) (dirOf : BitVec 32 → Str) (arg : PathArg) : Str :=
  match arg.dir with
  | none => cwd
  | some fd => if fd.truncate 32 = atFdcwd then cwd else dirOf (fd.truncate 32)

/-- The argument is given, and the filter keeps it both as it is spelled and as it is resolved. -/
def Kept (view : TraceeView) (cwd : Str) (arg : PathArg) : Prop :=
  arg.addr ≠ 0 ∧ view.string arg.addr ≠ [] ∧ shouldFilterPath (view.string arg.addr) = false ∧
    shouldFilterPath (normalizePath (fromCwd cwd (view.string arg.addr))) = false

private theorem recordedPath_kept {view : TraceeView} {ps : ProcessState} {cwd : Str} {arg : PathArg}
    (h : Kept view cwd arg)
    (hcwd : lookupCwd view ps = cwd) (hne : cwd ≠ []) :
    (recordedPath view ps arg.addr).2 = some (normalizePath (fromCwd cwd (readString view arg.addr))) := by
  obtain ⟨haddr, hpath, hspelled, hresolved⟩ := h
  have hread : readString view arg.addr = view.string arg.addr := if_neg haddr
  have hresolve := resolvePathCached_eq hpath (hcwd ▸ hne)
  rw [hcwd] at hresolve
  simp [recordedPath, hread, hpath, hspelled, hresolve, hresolved]

/-- `rename("a.tmp", "out/../a.h")` in `/home/u`. -/
def renameHeader : Regs := { origRax := sysRename, rdi := 1, rsi := 2, rax := 0 }

def headerView : TraceeView :=
  { string := fun addr => if addr = 1 then "a.tmp".toList else "out/../a.h".toList, cwd := "/home/u".toList }

end Bdtrace
