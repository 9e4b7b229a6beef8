import Bdtrace.General.ClassicBpf
import Bdtrace.Tracer.SyscallStops

/-! The seccomp filter of the fast path, and the kernels it is tried on. -/
namespace Bdtrace
open ClassicBpf

/-- The words of `seccomp_data` that the filter loads. -/
structure SeccompData where
  nr : BitVec 32
  arch : BitVec 32
  deriving DecidableEq, Repr

def SeccompData.word (d : SeccompData) (offset : BitVec 32) : BitVec 32 :=
  if offset = 0 then d.nr else if offset = 4 then d.arch else 0

def auditArch : BitVec 32 := 0xC000003E
def seccompRetAllow : BitVec 32 := 0x7fff0000
def seccompRetTrace : BitVec 32 := 0x7ff00000

/-- The program that the loop of `install_seccomp_filter` builds for a table. -/
def seccompFilterFor (table : List (BitVec 64)) : List Insn :=
  let n := table.length
  [.ldAbs 4, .jeq auditArch 0 (BitVec.ofNat 8 (n + 1)), .ldAbs 0] ++
    table.mapIdx (fun i nr => .jeq (nr.truncate 32) (BitVec.ofNat 8 (n - i)) 0) ++
    [.ret seccompRetAllow, .ret seccompRetTrace]

def installSeccompFilter : List Insn := seccompFilterFor tracedSyscalls

def SeccompData.verdict (d : SeccompData) : Option (BitVec 32) := run d.word installSeccompFilter 0 0

structure KernelVersion where
  major : Int
  minor : Int
  deriving DecidableEq, Repr

/-- `kernel_supports_seccomp_trace` on the two numbers that `sscanf` reads from the release. -/
def kernelSupportsSeccompTrace (release : Option KernelVersion) : Bool :=
  match release with
  | none => false
  | some v => if 3 < v.major then true else v.major == 3 && decide (5 ≤ v.minor)

/-- Whether `start` tries the fast path. -/
def attemptSeccomp (seccompAllowed procsOnly noSeccomp : Bool) (release : Option KernelVersion) : Bool :=
  seccompAllowed && !procsOnly && !noSeccomp && kernelSupportsSeccompTrace release

private def tracedNumbers : List (BitVec 32) := tracedSyscalls.map (·.truncate 32)

private theorem program_eq : installSeccompFilter =
    .ldAbs 4 :: .jeq auditArch 0 37 :: .ldAbs 0 :: (jumpTable tracedNumbers ++
      [.ret seccompRetAllow, .ret seccompRetTrace]) := by decide

/-- The filter traps exactly the recorded system calls of the native architecture. -/
theorem SeccompData.verdict_eq (d : SeccompData) :
    d.verdict = some (if d.arch = auditArch ∧ d.nr ∈ tracedSyscalls.map (·.truncate 32) then seccompRetTrace
      else seccompRetAllow) := by
  have harch : d.word 4 = d.arch := rfl
  have hnr : d.word 0 = d.nr := rfl
  rw [verdict, program_eq, run, run, harch]
  by_cases ha : d.arch = auditArch
  · have hlen : tracedNumbers.length < 256 := by decide
    have htable := run_jumpTable d.word hlen seccompRetAllow seccompRetTrace d.nr
    have hstep : run d.word (.ldAbs 0 :: (jumpTable tracedNumbers ++ [.ret seccompRetAllow, .ret seccompRetTrace]))
        0 d.arch = run d.word (jumpTable tracedNumbers ++ [.ret seccompRetAllow, .ret seccompRetTrace]) 0 d.nr := rfl
    simp only [ha, if_true, true_and]
    rw [ha] at hstep
    exact hstep.trans htable
  · -- the jump of a foreign architecture ends at the allowing return
    have hskip := run_skip d.word (.ldAbs 0 :: jumpTable tracedNumbers) [.ret seccompRetAllow, .ret seccompRetTrace]
      0 d.arch
    simp only [ha, if_false, false_and]
    exact hskip

/-! ### Every table -/

private theorem mapIdx_jumpTable (table : List (BitVec 64)) :
    table.mapIdx (fun i nr => Insn.jeq (nr.truncate 32) (BitVec.ofNat 8 (table.length - i)) 0) =
      jumpTable (table.map (·.truncate 32)) := by
  induction table with
  | nil => rfl
  | cons nr table ih =>
    rw [List.mapIdx_cons, List.map_cons, jumpTable, ← ih, List.length_map]
    congr 1
    apply List.mapIdx_eq_mapIdx_iff.mpr
    intro i _
    rw [List.length_cons, Nat.add_sub_add_right]

/-- The construction is right for every table whose jumps fit in eight bits: whatever the accumulator
holds first, the run stays inside the program and traces the numbers of the table on the native architecture. -/
private theorem seccompFilterFor_exec {table : List (BitVec 64)} (hlen : table.length ≤ 254)
    (word : BitVec 32 → BitVec 32)
    (acc : BitVec 32) :
    exec word (seccompFilterFor table) (seccompFilterFor table).length 0 acc =
      some (if word 4 = auditArch ∧ word 0 ∈ table.map (·.truncate 32) then seccompRetTrace else seccompRetAllow) := by
  have hprog : seccompFilterFor table = .ldAbs 4 :: .jeq auditArch 0 (BitVec.ofNat 8 (table.length + 1)) :: .ldAbs 0 ::
      (jumpTable (table.map (·.truncate 32)) ++ [.ret seccompRetAllow, .ret seccompRetTrace]) := by
    simp only [seccompFilterFor, mapIdx_jumpTable, List.cons_append, List.nil_append]
  have hjf : (BitVec.ofNat 8 (table.length + 1)).toNat = table.length + 1 := by
    rw [BitVec.toNat_ofNat, Nat.mod_eq_of_lt (by omega)]
  rw [exec_eq_run word _ (by omega), List.drop_zero, hprog, run, run]
  by_cases harch : word 4 = auditArch
  · have htable : (table.map (·.truncate 32)).length < 256 := by
      rw [List.length_map]
      omega
    simp only [harch, if_true, true_and]
    exact run_jumpTable word htable seccompRetAllow seccompRetTrace (word 0)
  · -- the jump of a foreign architecture ends at the allowing return
    simp only [harch, if_false, false_and, hjf]
    have hskip := run_skip word (.ldAbs 0 :: jumpTable (table.map (·.truncate 32)))
      [.ret seccompRetAllow, .ret seccompRetTrace] 0 (word 4)
    rw [List.length_cons, length_jumpTable, List.length_map] at hskip
    exact hskip

private theorem mem_tracedNumbers (nr : BitVec 32) :
    nr ∈ tracedSyscalls.map (·.truncate 32) ↔ nr.setWidth 64 ∈ tracedSyscalls := by
  -- no number of the table is cut off
  have hsmall : (tracedSyscalls.map (·.truncate 32)).map (BitVec.setWidth 64) = tracedSyscalls := rfl
  constructor
  · intro h
    rw [← hsmall]
    exact List.mem_map_of_mem h
  · intro h
    have hnr : (nr.setWidth 64).truncate 32 = nr := by
      apply BitVec.eq_of_toNat_eq
      have := nr.isLt
      simp only [BitVec.truncate, BitVec.toNat_setWidth]
      omega
    exact hnr ▸ List.mem_map_of_mem (f := (·.truncate 32)) h

/-- The filter traces exactly the table, which is the present one or any other of at most 254 numbers. -/
theorem seccomp_filter_exact (word : BitVec 32 → BitVec 32) (acc : BitVec 32) :
    exec word installSeccompFilter installSeccompFilter.length 0 acc =
      some (if word 4 = auditArch ∧ (word 0).setWidth 64 ∈ tracedSyscalls then seccompRetTrace else seccompRetAllow) ∧
    ∀ table : List (BitVec 64), table.length ≤ 254 →
      exec word (seccompFilterFor table) (seccompFilterFor table).length 0 acc =
        some (if word 4 = auditArch ∧ word 0 ∈ table.map (·.truncate 32) then seccompRetTrace
          else seccompRetAllow) := by
  refine ⟨?_, fun table hlen => seccompFilterFor_exec hlen word acc⟩
  have hlen : tracedSyscalls.length ≤ 254 := by decide
  have hpresent := seccompFilterFor_exec hlen word acc
  simp only [mem_tracedNumbers] at hpresent
  exact hpresent

/-- A task's own system call at the filter. -/
def Regs.seccompData (regs : Regs) : SeccompData := ⟨regs.origRax.truncate 32, auditArch⟩

def Regs.trapped (regs : Regs) : Bool := regs.seccompData.verdict == some seccompRetTrace

private theorem Regs.trapped_iff (regs : Regs) :
    regs.trapped = true ↔ regs.origRax.truncate 32 ∈ tracedSyscalls.map (·.truncate 32) := by
  have hne : seccompRetAllow ≠ seccompRetTrace := by decide
  simp only [trapped, SeccompData.verdict_eq, seccompData, true_and, beq_iff_eq, Option.some.injEq]
  constructor
  · intro h
    by_contra hm
    exact hne (by simpa only [if_neg hm] using h)
  · intro hm
    rw [if_pos hm]

theorem entryArgs_untraced (regs : Regs) {nr : BitVec 64} (h : nr ∉ tracedSyscalls) :
    entryArgs regs nr = (0, 0, 0) ∧ nr ≠ sysFchdir := by
  simp only [tracedSyscalls, List.mem_cons, List.not_mem_nil, or_false, not_or] at h
  simp only [entryArgs, List.mem_cons, List.not_mem_nil, or_false, h, if_false, ne_eq, not_false_eq_true, and_self]

/-- The filter traps every system call whose exit must be inspected. -/
theorem trapped_of_exitNeeded {ps : ProcessState} {regs : Regs}
    (h : (decodeSyscallEntry ps regs regs.origRax).exitNeeded = true) : regs.trapped = true := by
  rw [Regs.trapped_iff]
  apply List.mem_map_of_mem
  by_contra hm
  obtain ⟨hargs, hne⟩ := entryArgs_untraced regs hm
  simp [decodeSyscallEntry, hargs, hne] at h

end Bdtrace
