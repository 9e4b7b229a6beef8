import Mathlib.Data.List.Basic

/-! Classic BPF programs of loads, equality jumps and returns, and the dispatch table of one
jump for each accepted word. Jumps only go forward, so a run is a recursion on the program. -/
namespace ClassicBpf

inductive Insn where
  | ldAbs (k : BitVec 32)
  | jeq (k : BitVec 32) (jt jf : BitVec 8)
  | ret (k : BitVec 32)
  deriving DecidableEq, Repr

/-- The returned word, if the program returns; `skip` instructions are jumped over first, and `acc`
is the accumulator. -/
def run (word : BitVec 32 → BitVec 32) : List Insn → Nat → BitVec 32 → Option (BitVec 32)
  | [], _, _ => none
  | _ :: prog, skip + 1, acc => run word prog skip acc
  | .ldAbs k :: prog, 0, _ => run word prog 0 (word k)
  | .jeq k jt jf :: prog, 0, acc => run word prog (if acc = k then jt.toNat else jf.toNat) acc
  | .ret k :: _, 0, _ => some k

/-- A run by the program counter, of so many instructions at most: a jump is relative to the next
instruction, and there is no result when the counter leaves the program. -/
def exec (word : BitVec 32 → BitVec 32) (prog : List Insn) : Nat → Nat → BitVec 32 → Option (BitVec 32)
  | 0, _, _ => none
  | fuel + 1, pc, acc =>
    match prog[pc]? with
    | none => none
    | some (.ldAbs k) => exec word prog fuel (pc + 1) (word k)
    | some (.jeq k jt jf) => exec word prog fuel (pc + 1 + if acc = k then jt.toNat else jf.toNat) acc
    | some (.ret k) => some k

/-- One jump for each key, over the remaining keys and one more instruction. -/
def jumpTable : List (BitVec 32) → List Insn
  | [] => []
  | key :: keys => .jeq key (BitVec.ofNat 8 (keys.length + 1)) 0 :: jumpTable keys

section
variable (word : BitVec 32 → BitVec 32)

@[simp] theorem length_jumpTable (keys : List (BitVec 32)) : (jumpTable keys).length = keys.length := by
  induction keys with
  | nil => rfl
  | cons key keys ih => rw [jumpTable, List.length_cons, List.length_cons, ih]

theorem run_skip (pre prog : List Insn) (skip : Nat) (acc : BitVec 32) :
    run word (pre ++ prog) (pre.length + skip) acc = run word prog skip acc := by
  induction pre with
  | nil => rw [List.nil_append, List.length_nil, Nat.zero_add]
  | cons i pre ih =>
    rw [List.cons_append, List.length_cons, Nat.add_right_comm]
    exact ih

private theorem run_drop (prog : List Insn) (skip : Nat) (acc : BitVec 32) :
    run word prog skip acc = run word (prog.drop skip) 0 acc := by
  induction prog generalizing skip with
  | nil => rw [List.drop_nil, run, run]
  | cons i prog ih =>
    cases skip with
    | zero => rw [List.drop_zero]
    | succ skip =>
      rw [List.drop_succ_cons]
      exact ih skip

/-- As many instructions as are left are enough. -/
theorem exec_eq_run (prog : List Insn) {fuel pc : Nat} (h : prog.length ≤ pc + fuel) (acc : BitVec 32) :
    exec word prog fuel pc acc = run word (prog.drop pc) 0 acc := by
  induction fuel generalizing pc acc with
  | zero =>
    have hnone : prog.drop pc = [] := List.drop_eq_nil_of_le h
    rw [hnone]
    rfl
  | succ fuel ih =>
    rw [exec]
    by_cases hpc : pc < prog.length
    · rw [List.getElem?_eq_getElem hpc, List.drop_eq_getElem_cons hpc]
      cases hi : prog[pc] with
      | ldAbs k => exact ih (by omega) (word k)
      | jeq k jt jf =>
        simp only [run]
        rw [run_drop, List.drop_drop]
        exact ih (by omega) acc
      | ret k => rfl
    · rw [List.getElem?_eq_none (by omega), List.drop_eq_nil_of_le (by omega)]
      rfl

/-- The table returns its second word on the keys and its first one elsewhere. -/
theorem run_jumpTable {keys : List (BitVec 32)} (hlen : keys.length < 256) (miss hit acc : BitVec 32) :
    run word (jumpTable keys ++ [.ret miss, .ret hit]) 0 acc = some (if acc ∈ keys then hit else miss) := by
  induction keys with
  | nil => simp [jumpTable, run]
  | cons key keys ih =>
    rw [List.length_cons] at hlen
    have hjt : (BitVec.ofNat 8 (keys.length + 1)).toNat = (jumpTable keys).length + 1 := by
      rw [BitVec.toNat_ofNat, length_jumpTable, Nat.mod_eq_of_lt hlen]
    rw [jumpTable, List.cons_append, run]
    by_cases hkey : acc = key
    · rw [if_pos hkey, hjt, run_skip]
      simp [run, hkey]
    · rw [if_neg hkey]
      have hmem : acc ∈ key :: keys ↔ acc ∈ keys := by simp [hkey]
      simp only [hmem]
      exact ih (by omega)

end
end ClassicBpf
