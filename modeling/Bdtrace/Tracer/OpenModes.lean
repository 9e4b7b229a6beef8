import Bdtrace.Tracer.RecordedCalls

/-! With which mode an open is recorded. -/
namespace Bdtrace

/-- The flags that the caller asks for; `openHow` is the flags field of the `struct open_how` at an address. -/
def requestedFlags (openHow : BitVec 64 → BitVec 64) (regs : Regs) : BitVec 64 :=
  if regs.origRax = sysOpen then regs.rsi
  else if regs.origRax = sysOpenat then regs.rdx
  else if regs.origRax = sysOpenat2 then openHow regs.rdx
  else creatFlags.zeroExtend 64

/-- O_RDONLY, O_WRONLY and O_RDWR; the fourth access mode has no name. -/
def ModeOf (flags : BitVec 64) (mode : FileAccessMode) : Prop :=
  (flags &&& 3 = 0 → mode = .read) ∧ (flags &&& 3 = 1 → mode = .write) ∧ (flags &&& 3 = 2 → mode = .rdwr)

def SessionCall.mode : SessionCall → Option FileAccessMode
  | .fileAccess rec => some rec.mode
  | .failedAccess rec => some rec.mode
  | _ => none

/-- Whatever the call returns, it is recorded with the mode that was asked for. -/
def OpenClassified (openHow : BitVec 64 → BitVec 64) (regs : Regs) : Prop :=
  ∀ stop view pid ps ret, ∀ call ∈ (traceCall stop view pid ps regs ret).2, ∀ mode ∈ call.mode,
    ModeOf (requestedFlags openHow regs) mode

/-- The low bits of the pointer are read as those of the flags. -/
def PointerTells (flags pointer : BitVec 64) : Prop :=
  flags &&& 3 = 3 ∨ pointer &&& 3 = flags &&& 3 ∨ (flags &&& 3 = 2 ∧ pointer &&& 3 = 3)

private theorem accmode_truncate (flags : BitVec 64) : (flags.truncate 32 &&& 3).toNat = (flags &&& 3).toNat := by
  have h64 : (flags &&& 3).toNat = flags.toNat % 4 := Nat.and_two_pow_sub_one_eq_mod flags.toNat 2
  have h32 : (flags.truncate 32 &&& 3).toNat = (flags.truncate 32).toNat % 4 :=
    Nat.and_two_pow_sub_one_eq_mod (flags.truncate 32).toNat 2
  rw [h64, h32, BitVec.truncate_eq_setWidth, BitVec.toNat_setWidth]
  omega

private theorem openMode_truncate (flags : BitVec 64) : openMode (flags.truncate 32) =
    if flags &&& 3 = 0 then .read else if flags &&& 3 = 1 then .write else .rdwr := by
  have h := accmode_truncate flags
  simp only [openMode, ← BitVec.toNat_inj, h]
  rfl

private theorem accmode_cases (flags : BitVec 64) :
    flags &&& 3 = 0 ∨ flags &&& 3 = 1 ∨ flags &&& 3 = 2 ∨ flags &&& 3 = 3 := by
  have h : (flags &&& 3).toNat = flags.toNat % 4 := Nat.and_two_pow_sub_one_eq_mod flags.toNat 2
  simp only [← BitVec.toNat_inj, h]
  change flags.toNat % 4 = 0 ∨ flags.toNat % 4 = 1 ∨ flags.toNat % 4 = 2 ∨ flags.toNat % 4 = 3
  omega

private theorem modeOf_openMode (flags : BitVec 64) : ModeOf flags (openMode (flags.truncate 32)) := by
  rw [openMode_truncate]
  refine ⟨fun h => ?_, fun h => ?_, fun h => ?_⟩
  all_goals
    rw [h]
    rfl

private theorem modeOf_pointer_iff (flags pointer : BitVec 64) :
    ModeOf flags (openMode (pointer.truncate 32)) ↔ PointerTells flags pointer := by
  rw [openMode_truncate, ModeOf, PointerTells]
  rcases accmode_cases flags with hf | hf | hf | hf
  all_goals
    rcases accmode_cases pointer with hp | hp | hp | hp
    all_goals
      rw [hf, hp]
      decide

section
variable {view : TraceeView} {pid : Int} {ps : ProcessState} {ret : BitVec 64}

private theorem recordExit_open (h : ps.pendingSyscall ∈ openFamily) : recordExit view pid ps ret =
    recordEither view pid ps (openMode ps.pendingFlags) ret (ret.truncate 32).toInt := by
  simp only [openFamily, List.mem_cons, List.not_mem_nil, or_false] at h
  rw [recordExit, if_pos h]

private theorem recordEither_mode {mode : FileAccessMode} {fd : Int} :
    ∀ call ∈ (recordEither view pid ps mode ret fd).2, ps.pendingPathAddr ≠ 0 ∧ call.mode = some mode := by
  intro call hcall
  simp only [recordEither] at hcall
  split at hcall
  · cases hcall
  · split at hcall
    all_goals
      obtain ⟨path, -, rfl⟩ := Option.map_eq_some_iff.mp (Option.mem_toList.mp hcall)
      exact ⟨by assumption, rfl⟩

end

section
variable {openHow : BitVec 64 → BitVec 64} {regs : Regs}

/-- All accesses of an open have the mode of the saved flags. -/
private theorem traceCall_open_mode (h : regs.origRax ∈ openFamily) {stop : EntryStop} {view : TraceeView} {pid : Int}
    {ps : ProcessState} {ret : BitVec 64} : ∀ call ∈ (traceCall stop view pid ps regs ret).2,
      (entryArgs regs regs.origRax).1 ≠ 0 ∧ call.mode = some (openMode (entryArgs regs regs.origRax).2.2) := by
  intro call hcall
  rcases @traceCall_cases stop view pid ps regs ret with hnone | hexit
  · rw [hnone] at hcall
    cases hcall
  · rw [hexit, recordExit_open h] at hcall
    exact recordEither_mode call hcall

/-- What is saved of an open, and what was asked for. -/
private theorem saved_flags (h : regs.origRax ∈ openFamily) (h2 : regs.origRax ≠ sysOpenat2) :
    (entryArgs regs regs.origRax).2.2 = (requestedFlags openHow regs).truncate 32 := by
  simp only [openFamily, List.mem_cons, List.not_mem_nil, or_false] at h
  rcases h with h | h | h | h
  · simp [entryArgs, requestedFlags, h]
  · simp [entryArgs, requestedFlags, h, sysOpen, sysOpenat]
  · exact absurd h h2
  · rw [entryArgs, requestedFlags, h]
    rfl

private theorem saved_openat2 (h : regs.origRax = sysOpenat2) : (entryArgs regs regs.origRax).1 = regs.rsi ∧
    (entryArgs regs regs.origRax).2.2 = regs.rdx.truncate 32 ∧ requestedFlags openHow regs = openHow regs.rdx := by
  rw [entryArgs, requestedFlags, h]
  exact ⟨rfl, rfl, rfl⟩

/-- A view in which every address holds one path. -/
private theorem openat2_recorded (h : regs.origRax = sysOpenat2) (hpath : regs.rsi ≠ 0) :
    ∃ call ∈ (traceCall .seccomp libmView 20 {} regs 3).2, call.mode = some (openMode (regs.rdx.truncate 32)) := by
  have hopen : regs.origRax ∈ openFamily := by
    rw [h]
    decide
  obtain ⟨haddr, hflags, -⟩ := @saved_openat2 id regs h
  have hname : (recordedPath libmView {} (entryArgs regs regs.origRax).1).2 = some "/usr/lib/libm.so".toList := by
    rw [haddr, recordedPath, readString, if_neg hpath]
    rfl
  have hleaving : (recordedPath libmView (leaving {} regs) (leaving {} regs).pendingPathAddr).2 =
      some "/usr/lib/libm.so".toList := (@recordedPath_lookup libmView (leaving {} regs) {} rfl _).trans hname
  have hcalls : (traceCall .seccomp libmView 20 {} regs 3).2 = [.fileAccess
      { pid := 20, filename := "/usr/lib/libm.so".toList, mode := openMode (entryArgs regs regs.origRax).2.2, fd := 3
        timestampUs := 7 }] := by
    rw [traceCall_calls (fun hstop => by cases hstop) (needed_of_recorded hname) (by decide), recordExit_open hopen,
      recordEither, if_neg (addr_of_recorded hleaving), if_pos (by decide), recordAccess_recorded hleaving]
    rfl
  rw [hcalls, hflags]
  exact ⟨_, List.mem_singleton_self _, rfl⟩

/-- An open is recorded with the mode asked for, unless it is an openat2 whose pointer looks like other flags. -/
theorem openClassified_iff (h : regs.origRax ∈ openFamily) : OpenClassified openHow regs ↔
    (regs.origRax = sysOpenat2 → regs.rsi = 0 ∨ PointerTells (openHow regs.rdx) regs.rdx) := by
  constructor
  · intro hall h2
    by_contra hnone
    obtain ⟨hpath, hpointer⟩ := not_or.mp hnone
    obtain ⟨call, hcall, hmode⟩ := openat2_recorded h2 hpath
    have hmodeOf := hall .seccomp libmView 20 {} 3 call hcall _ hmode
    rw [(saved_openat2 h2).2.2, modeOf_pointer_iff] at hmodeOf
    exact hpointer hmodeOf
  · intro hcond stop view pid ps ret call hcall mode hmode
    obtain ⟨haddr, hsaved⟩ := traceCall_open_mode h call hcall
    obtain rfl : openMode (entryArgs regs regs.origRax).2.2 = mode := Option.some.inj (hsaved.symm.trans hmode)
    by_cases h2 : regs.origRax = sysOpenat2
    · obtain ⟨hfirst, hflags, hrequested⟩ := @saved_openat2 openHow regs h2
      rw [hflags, hrequested, modeOf_pointer_iff]
      exact (hcond h2).resolve_left (hfirst ▸ haddr)
    · rw [@saved_flags openHow regs h h2]
      exact modeOf_openMode _

end

/-- `openat2(AT_FDCWD, "/usr/lib/libm.so", how, 24)`. -/
def openat2Libm : Regs := { origRax := sysOpenat2, rdi := -100, rsi := 1, rdx := 0x7ffe0010, r10 := 24, rax := 0 }

theorem openat2_reading : OpenClassified (fun _ => 0) openat2Libm :=
  (openClassified_iff (by decide)).mpr fun _ => .inr (.inr (.inl (by decide)))

/-- With O_WRONLY in the structure it is recorded as a read. -/
theorem openat2_writing_misread :
    requestedFlags (fun _ => 1) openat2Libm = 1 ∧
    (traceCall .syscall libmView 20 {} openat2Libm 3).2 =
      [.fileAccess { pid := 20, filename := "/usr/lib/libm.so".toList, mode := .read, fd := 3, timestampUs := 7 }] ∧
    ¬OpenClassified (fun _ => 1) openat2Libm := by
  have hcalls : (traceCall .syscall libmView 20 {} openat2Libm 3).2 =
      [.fileAccess { pid := 20, filename := "/usr/lib/libm.so".toList, mode := .read, fd := 3, timestampUs := 7 }] := by
    decide
  refine ⟨rfl, hcalls, fun h => ?_⟩
  have hmode := h .syscall libmView 20 {} 3 _ (hcalls ▸ List.mem_singleton_self _) .read rfl
  cases hmode.2.1 rfl

end Bdtrace
