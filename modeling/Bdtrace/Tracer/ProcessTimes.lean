import Bdtrace.CStrings

/-! The processor times of a process, read from the line of `/proc/<pid>/stat`. -/
namespace Bdtrace

/-- The loop that passes over `skip` fields. -/
def skipFields : Nat → Str → Str
  | 0, p => p
  | skip + 1, p => if p = [] then [] else skipFields skip ((p.dropWhile (· = ' ')).dropWhile (· ≠ ' '))

/-- The two numbers of `read_proc_cpu`, in ticks; `none` when it gives up. -/
def procCpuTicks (content : Str) : Option (Int × Int) :=
  let buf := content.take 1023
  if buf = [] then none
  else
    match strrchr ')' (cString buf) with
    | none => none
    | some paren =>
      let p := skipFields 11 paren.tail
      let utime := strtol10 (p.dropWhile (· = ' '))
      let stime := strtol10 (utime.2.dropWhile (· = ' '))
      some (utime.1, stime.1)

def ticksToUs (ticks ticksPerSec : Int) : Int :=
  (int64 (ticks * 1000000)).tdiv (if ticksPerSec ≤ 0 then 100 else ticksPerSec)

/-- `read_proc_cpu` on what the file holds, `none` when it does not open. -/
def readProcCpu (content : Option Str) (ticksPerSec : Int) : Int × Int :=
  match content.bind procCpuTicks with
  | none => (0, 0)
  | some (utime, stime) => (ticksToUs utime ticksPerSec, ticksToUs stime ticksPerSec)

/-! ### The line of the kernel -/

/-- A decimal integer as text. -/
structure Numeral where
  sign : Option Bool := none
  digits : Str
  nonempty : digits ≠ []
  decimal : ∀ c ∈ digits, c.isDigit = true

namespace Numeral

/-- `some true` is a minus, `some false` a plus. -/
def text (n : Numeral) : Str :=
  (match n.sign with
    | none => []
    | some true => ['-']
    | some false => ['+']) ++ n.digits

def value (n : Numeral) : Int := if n.sign = some true then -(digitsValue n.digits : Int) else digitsValue n.digits

/-- A number that a `long` holds. -/
def Fits (n : Numeral) : Prop := -2 ^ 63 ≤ n.value ∧ n.value < 2 ^ 63

/-- A number of ticks whose millionfold an `int64_t` holds. -/
def Converts (n : Numeral) : Prop := -2 ^ 63 ≤ n.value * 1000000 ∧ n.value * 1000000 < 2 ^ 63

end Numeral

/-- A field behind at least one blank. -/
def spaced (blanks : Nat) (field : Str) : Str := List.replicate (blanks + 1) ' ' ++ field

/-- The line of a process; what follows `stime` begins with a blank or ends the line. -/
structure StatLine where
  pid : Numeral
  comm : Str
  comm_nul : '\x00' ∉ comm
  state : Char
  state_letter : state.isAlpha = true
  fields : List (Nat × Numeral)
  fields_length : fields.length = 10
  utime : Numeral
  stime : Numeral
  blanks : Nat × Nat × Nat
  more : Str
  more_plain : ∀ c ∈ more, c ≠ ')' ∧ c ≠ '\x00'
  more_blank : ∀ c ∈ more.head?, isSpace c = true

namespace StatLine
variable (l : StatLine)

/-- What stands behind the command name. -/
def tail : Str :=
  spaced l.blanks.1 [l.state] ++ l.fields.flatMap (fun f => spaced f.1 f.2.text) ++
    (spaced l.blanks.2.1 l.utime.text ++ (spaced l.blanks.2.2 l.stime.text ++ l.more))

def text : Str := l.pid.text ++ " (".toList ++ l.comm ++ ')' :: l.tail

end StatLine

/-! ### Fields -/

/-- The text of a field: no blank, bracket or NUL. -/
structure FieldText (f : Str) : Prop where
  nonempty : f ≠ []
  plain : ∀ c ∈ f, c ≠ ' ' ∧ c ≠ ')' ∧ c ≠ '\x00'

private theorem fieldText_state {c : Char} (h : c.isAlpha = true) : FieldText [c] := by
  refine ⟨List.cons_ne_nil _ _, fun d hd => ?_⟩
  obtain rfl := List.mem_singleton.mp hd
  refine ⟨?_, ?_, ?_⟩ <;> rintro rfl <;> exact absurd h (by decide)

private theorem isDigit_plain {c : Char} (h : c.isDigit = true) :
    isSpace c = false ∧ c ≠ '-' ∧ c ≠ '+' ∧ c ≠ ' ' ∧ c ≠ ')' ∧ c ≠ '\x00' := by
  have hne : ∀ d : Char, d.isDigit = false → c ≠ d := by
    rintro d hd rfl
    rw [hd] at h
    cases h
  refine ⟨?_, hne '-' (by decide), hne '+' (by decide), hne ' ' (by decide),
    hne ')' (by decide), hne '\x00' (by decide)⟩
  simp only [isSpace, hne ' ' (by decide), hne '\t' (by decide), hne '\n' (by decide), hne '\x0b' (by decide),
    hne '\x0c' (by decide), hne '\r' (by decide), decide_false, Bool.or_self]

private theorem fieldText_numeral (n : Numeral) : FieldText n.text := by
  constructor
  · exact fun h => n.nonempty (List.append_eq_nil_iff.mp h).2
  · intro c hc
    rcases List.mem_append.mp hc with hsign | hdigit
    · rcases hs : n.sign with _ | _ | _ <;> rw [hs] at hsign <;> simp at hsign <;> subst hsign <;> decide
    · exact (isDigit_plain (n.decimal c hdigit)).2.2.2

private theorem dropBlanks_spaced (b : Nat) {f : Str} (hf : FieldText f) (rest : Str) :
    (spaced b f ++ rest).dropWhile (· = ' ') = f ++ rest := by
  have hblanks : ∀ c ∈ List.replicate (b + 1) ' ', decide (c = ' ') = true := by
    intro c hc
    exact decide_eq_true (List.eq_of_mem_replicate hc)
  rw [spaced, List.append_assoc, List.dropWhile_append_of_pos hblanks]
  cases f with
  | nil => exact absurd rfl hf.nonempty
  | cons c f =>
    rw [List.cons_append, List.dropWhile_cons_of_neg]
    simpa using (hf.plain c List.mem_cons_self).1

/-- A field is passed over up to the blank behind it. -/
private theorem skipFields_spaced (skip b : Nat) {f : Str} (hf : FieldText f) {rest : Str}
    (hrest : ∃ r, rest = ' ' :: r) :
    skipFields (skip + 1) (spaced b f ++ rest) = skipFields skip rest := by
  have hne : spaced b f ++ rest ≠ [] := by simp [spaced]
  have hword : ∀ c ∈ f, decide (c ≠ ' ') = true := fun c hc => decide_eq_true (hf.plain c hc).1
  obtain ⟨r, rfl⟩ := hrest
  rw [skipFields, if_neg hne, dropBlanks_spaced b hf, List.dropWhile_append_of_pos hword,
    List.dropWhile_cons_of_neg (by simp)]

private theorem spaced_blank (b : Nat) (f rest : Str) : ∃ r, spaced b f ++ rest = ' ' :: r :=
  ⟨List.replicate b ' ' ++ f ++ rest, by simp [spaced, List.replicate_succ]⟩

private theorem skipFields_numerals (fields : List (Nat × Numeral)) {rest : Str} (hrest : ∃ r, rest = ' ' :: r) :
    skipFields fields.length (fields.flatMap (fun f => spaced f.1 f.2.text) ++ rest) = rest := by
  induction fields with
  | nil => rfl
  | cons f fields ih =>
    have hnext : ∃ r, fields.flatMap (fun f => spaced f.1 f.2.text) ++ rest = ' ' :: r := by
      cases fields with
      | nil => exact hrest
      | cons g fields =>
        rw [List.flatMap_cons, List.append_assoc]
        exact spaced_blank _ _ _
    rw [List.flatMap_cons, List.append_assoc, List.length_cons, skipFields_spaced _ _ (fieldText_numeral f.2) hnext, ih]

/-! ### Numbers -/

private theorem takeDigits {digits : Str} (h : ∀ c ∈ digits, c.isDigit = true) {rest : Str}
    (hrest : ∀ c ∈ rest.head?, c.isDigit = false) :
    (digits ++ rest).takeWhile Char.isDigit = digits ∧ (digits ++ rest).dropWhile Char.isDigit = rest := by
  rw [List.takeWhile_append_of_pos h, List.dropWhile_append_of_pos h]
  cases rest with
  | nil => exact ⟨List.append_nil _, rfl⟩
  | cons c rest =>
    have hc := hrest c rfl
    rw [List.takeWhile_cons_of_neg (by simp [hc]), List.dropWhile_cons_of_neg (by simp [hc]), List.append_nil]
    exact ⟨rfl, rfl⟩

theorem strtol10_numeral (n : Numeral) {rest : Str} (hrest : ∀ c ∈ rest.head?, c.isDigit = false) :
    strtol10 (n.text ++ rest) = (clampLong n.value, rest) := by
  obtain ⟨htake, hdrop⟩ := takeDigits n.decimal hrest
  cases hdigits : n.digits with
  | nil => exact absurd hdigits n.nonempty
  | cons d digits =>
    have hd := isDigit_plain (n.decimal d (hdigits ▸ List.mem_cons_self))
    rw [hdigits] at htake hdrop
    cases hs : n.sign with
    | none =>
      have htext : n.text ++ rest = d :: digits ++ rest := by simp [Numeral.text, hs, hdigits]
      have hspace : (d :: digits ++ rest).dropWhile isSpace = d :: digits ++ rest :=
        List.dropWhile_cons_of_neg (by simp [hd.1])
      have hsign : ¬ ((d :: digits ++ rest).head? = some '-' ∨ (d :: digits ++ rest).head? = some '+') := by
        simp [hd.2.1, hd.2.2.1]
      rw [strtol10, htext]
      simp only [hspace, if_neg hsign, htake, hdrop]
      simp [Numeral.value, hs, hdigits, hd.2.1]
    | some negative =>
      cases negative with
      | true =>
        have htext : n.text ++ rest = '-' :: (d :: digits ++ rest) := by simp [Numeral.text, hs, hdigits]
        have hspace : ('-' :: (d :: digits ++ rest)).dropWhile isSpace = '-' :: (d :: digits ++ rest) := rfl
        rw [strtol10, htext]
        simp only [hspace, List.head?_cons, true_or, if_true, List.tail_cons, htake, hdrop]
        simp [Numeral.value, hs, hdigits]
      | false =>
        have htext : n.text ++ rest = '+' :: (d :: digits ++ rest) := by simp [Numeral.text, hs, hdigits]
        have hspace : ('+' :: (d :: digits ++ rest)).dropWhile isSpace = '+' :: (d :: digits ++ rest) := rfl
        rw [strtol10, htext]
        simp only [hspace, List.head?_cons, or_true, if_true, List.tail_cons, htake, hdrop]
        simp [Numeral.value, hs, hdigits]

/-! ### The whole line -/

namespace StatLine
variable {l : StatLine}

private theorem isSpace_not_digit {c : Char} (h : isSpace c = true) : c.isDigit = false := by
  rw [Bool.eq_false_iff]
  intro hd
  rw [(isDigit_plain hd).1] at h
  cases h

private theorem more_not_digit (l : StatLine) : ∀ c ∈ l.more.head?, c.isDigit = false :=
  fun c hc => isSpace_not_digit (l.more_blank c hc)

private theorem mem_spaced {b : Nat} {f : Str} {c : Char} (h : c ∈ spaced b f) : c = ' ' ∨ c ∈ f := by
  rcases List.mem_append.mp h with h | h
  · exact .inl (List.eq_of_mem_replicate h)
  · exact .inr h

private theorem spaced_plain (b : Nat) {f : Str} (hf : FieldText f) : ∀ c ∈ spaced b f, c ≠ ')' ∧ c ≠ '\x00' := by
  intro c hc
  rcases mem_spaced hc with rfl | hc
  · decide
  · exact (hf.plain c hc).2

/-- The bracket of the command name is the last one, and no byte behind it ends the string. -/
private theorem tail_plain (l : StatLine) : ∀ c ∈ l.tail, c ≠ ')' ∧ c ≠ '\x00' := by
  intro c hc
  simp only [tail, List.mem_append, List.mem_flatMap] at hc
  rcases hc with (hc | ⟨f, -, hc⟩) | hc | hc | hc
  · exact spaced_plain _ (fieldText_state l.state_letter) c hc
  · exact spaced_plain _ (fieldText_numeral f.2) c hc
  · exact spaced_plain _ (fieldText_numeral l.utime) c hc
  · exact spaced_plain _ (fieldText_numeral l.stime) c hc
  · exact l.more_plain c hc

private theorem text_nul (l : StatLine) : '\x00' ∉ l.text := by
  intro h
  simp only [text, List.mem_append, List.mem_cons] at h
  rcases h with ((h | h) | h) | h | h
  · exact ((fieldText_numeral l.pid).plain _ h).2.2 rfl
  · exact absurd h (by decide)
  · exact l.comm_nul h
  · exact absurd h (by decide)
  · exact (l.tail_plain _ h).2 rfl

/-- The eleven skipped fields end in front of `utime`. -/
private theorem skipFields_tail (l : StatLine) : skipFields 11 l.tail =
    spaced l.blanks.2.1 l.utime.text ++ (spaced l.blanks.2.2 l.stime.text ++ l.more) := by
  have hrest := spaced_blank l.blanks.2.1 l.utime.text (spaced l.blanks.2.2 l.stime.text ++ l.more)
  have hfields := skipFields_numerals l.fields hrest
  rw [l.fields_length] at hfields
  have hnext : ∃ r, l.fields.flatMap (fun f => spaced f.1 f.2.text) ++
      (spaced l.blanks.2.1 l.utime.text ++ (spaced l.blanks.2.2 l.stime.text ++ l.more)) = ' ' :: r := by
    cases hf : l.fields with
    | nil => exact hrest
    | cons f fields =>
      rw [List.flatMap_cons, List.append_assoc]
      exact spaced_blank _ _ _
  rw [tail, List.append_assoc, skipFields_spaced _ _ (fieldText_state l.state_letter) hnext, hfields]

private theorem procCpuTicks_text (hlen : l.text.length < 1024) :
    procCpuTicks l.text = some (clampLong l.utime.value, clampLong l.stime.value) := by
  have hnil : l.text ≠ [] := by simp [text]
  have hbracket : ')' ∉ l.tail := fun h => (l.tail_plain _ h).1 rfl
  have hbuf : l.text.take 1023 = l.text := List.take_of_length_le (by omega)
  have hparen : strrchr ')' l.text = some (')' :: l.tail) := strrchr_append hbracket _
  obtain ⟨r, hr⟩ := spaced_blank l.blanks.2.2 l.stime.text l.more
  have hblank : ∀ c ∈ (spaced l.blanks.2.2 l.stime.text ++ l.more).head?, c.isDigit = false := by
    rw [hr]
    rintro c ⟨⟩
    decide
  have hutime := strtol10_numeral l.utime hblank
  have hstime := strtol10_numeral l.stime l.more_not_digit
  rw [procCpuTicks, hbuf]
  simp only [if_neg hnil, cString_of_notMem l.text_nul, hparen, List.tail_cons, skipFields_tail,
    dropBlanks_spaced _ (fieldText_numeral _), hutime, hstime]

end StatLine

private theorem ticksToUs_of_converts {n : Numeral} (h : n.Converts) {ticksPerSec : Int} (hpos : 0 < ticksPerSec) :
    ticksToUs n.value ticksPerSec = (n.value * 1000000).tdiv ticksPerSec := by
  rw [ticksToUs, int64_of_range h.1 h.2, if_neg (by omega)]

/-- For a line of the kernel's form both times are read exactly, whatever the command is called, and converted exactly
where the conversion fits. -/
theorem readProcCpu_exact (l : StatLine) (hlen : l.text.length < 1024) (hutime : l.utime.Fits) (hstime : l.stime.Fits)
    (ticksPerSec : Int) :
    procCpuTicks l.text = some (l.utime.value, l.stime.value) ∧
    readProcCpu (some l.text) ticksPerSec = (ticksToUs l.utime.value ticksPerSec, ticksToUs l.stime.value ticksPerSec) ∧
    (l.utime.Converts → l.stime.Converts → 0 < ticksPerSec → readProcCpu (some l.text) ticksPerSec =
      ((l.utime.value * 1000000).tdiv ticksPerSec, (l.stime.value * 1000000).tdiv ticksPerSec)) := by
  have hticks := StatLine.procCpuTicks_text hlen
  rw [clampLong_of_range hutime.1 hutime.2, clampLong_of_range hstime.1 hstime.2] at hticks
  have hread : readProcCpu (some l.text) ticksPerSec =
      (ticksToUs l.utime.value ticksPerSec, ticksToUs l.stime.value ticksPerSec) := by
    rw [readProcCpu, Option.bind_some, hticks]
  refine ⟨hticks, hread, fun hu hs hpos => ?_⟩
  rw [hread, ticksToUs_of_converts hu hpos, ticksToUs_of_converts hs hpos]

/-- A command named `a) 1 (b`, and a signed number. -/
def bracketLine : StatLine where
  pid := ⟨none, "12".toList, by decide, List.all_eq_true.mp rfl⟩
  comm := "a) 1 (b".toList
  comm_nul := by decide
  state := 'S'
  state_letter := by decide
  fields := List.replicate 10 (0, ⟨none, "9".toList, by decide, List.all_eq_true.mp rfl⟩)
  fields_length := rfl
  utime := ⟨none, "007".toList, by decide, List.all_eq_true.mp rfl⟩
  stime := ⟨some true, "3".toList, by decide, List.all_eq_true.mp rfl⟩
  blanks := (0, 1, 0)
  more := " 5\n".toList
  more_plain := by simp
  more_blank := by simp [isSpace]

theorem readProcCpu_exact_bracket :
    bracketLine.text = "12 (a) 1 (b) S 9 9 9 9 9 9 9 9 9 9  007 -3 5\n".toList ∧
    readProcCpu (some bracketLine.text) 100 = (70000, -30000) := by
  have h := readProcCpu_exact bracketLine (by decide) ⟨by decide, by decide⟩ ⟨by decide, by decide⟩ 100
  exact ⟨by decide, h.2.2 ⟨by decide, by decide⟩ ⟨by decide, by decide⟩ (by decide)⟩

end Bdtrace
