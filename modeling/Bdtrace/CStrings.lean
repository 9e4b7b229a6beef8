import Bdtrace.Types

/-! What the functions of the C library do to byte strings. -/
namespace Bdtrace

def isSpace (c : Char) : Bool := c = ' ' || c = '\t' || c = '\n' || c = '\x0b' || c = '\x0c' || c = '\r'

/-- The bytes of a `const char*`. -/
def cString (s : Str) : Str := s.takeWhile (· ≠ '\x00')

/-- The text from the last `c` on. -/
def strrchr (c : Char) : Str → Option Str
  | [] => none
  | d :: s => match strrchr c s with
    | some rest => some rest
    | none => if d = c then some (d :: s) else none

/-- The value of decimal digits. -/
def digitsValue (digits : Str) : Nat := digits.foldl (fun n c => n * 10 + (c.toNat - 48)) 0

/-- The range of `long`; a number outside gives the nearer end. -/
def clampLong (v : Int) : Int := max (-2 ^ 63) (min v (2 ^ 63 - 1))

/-- `strtol(s, &s, 10)`: the number, and what stands behind it; without a digit the text is left as it is. -/
def strtol10 (s : Str) : Int × Str :=
  let t := s.dropWhile isSpace
  let negative := t.head? = some '-'
  let t := if t.head? = some '-' ∨ t.head? = some '+' then t.tail else t
  let digits := t.takeWhile Char.isDigit
  if digits = [] then (0, s)
  else (clampLong (if negative then -(digitsValue digits : Int) else digitsValue digits), t.dropWhile Char.isDigit)

private theorem cString_cons (c : Char) (s : Str) : cString (c :: s) = if c = '\x00' then [] else c :: cString s := by
  by_cases hc : c = '\x00' <;> simp [cString, hc]

theorem cString_of_notMem {s : Str} (h : '\x00' ∉ s) : cString s = s := by
  induction s with
  | nil => rfl
  | cons c s ih =>
    rw [List.mem_cons, not_or] at h
    rw [cString_cons, if_neg (Ne.symm h.1), ih h.2]

/-- Two texts that agree up to a NUL are the same string. -/
theorem cString_append_of_mem {s : Str} (h : '\x00' ∈ s) (l : Str) : cString (s ++ l) = cString s := by
  induction s with
  | nil => exact absurd h List.not_mem_nil
  | cons c s ih =>
    rw [List.cons_append, cString_cons, cString_cons]
    split
    · rfl
    · rename_i hc
      rw [ih ((List.mem_cons.mp h).resolve_left fun h => hc h.symm)]

private theorem strrchr_of_notMem {c : Char} {s : Str} (h : c ∉ s) : strrchr c s = none := by
  induction s with
  | nil => rfl
  | cons d s ih =>
    rw [List.mem_cons, not_or] at h
    rw [strrchr, ih h.2]
    exact if_neg (Ne.symm h.1)

/-- The last one is the one behind which there is none. -/
theorem strrchr_append {c : Char} {s : Str} (h : c ∉ s) (u : Str) : strrchr c (u ++ c :: s) = some (c :: s) := by
  induction u with
  | nil =>
    rw [List.nil_append, strrchr, strrchr_of_notMem h]
    exact if_pos rfl
  | cons d u ih => rw [List.cons_append, strrchr, ih]

theorem clampLong_of_range {v : Int} (h : -2 ^ 63 ≤ v) (h' : v < 2 ^ 63) : clampLong v = v := by
  unfold clampLong
  omega

end Bdtrace
