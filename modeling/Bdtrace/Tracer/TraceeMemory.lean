import Bdtrace.General.PartialReads
import Bdtrace.Types

/-! Reading a string of the tracee, page by page through `/proc/<pid>/mem` or word by word with PTRACE_PEEKDATA. -/
namespace Bdtrace
open PartialReads

/-- The memory of a stopped task, with its unmapped bytes, and whether `/proc/<pid>/mem` can be opened and read. -/
structure TraceeMemory where
  byte : BitVec 64 → Option Char
  opens : Bool
  reads : Bool

/-- `mem_fd`: -1 before the first use, -2 when it cannot be opened. -/
inductive MemFd where
  | untried | unusable | opened
  deriving DecidableEq, Repr

def isNul (c : Char) : Bool := c.toNat == 0

/-- The bytes from an address on. -/
def bytesFrom (byte : BitVec 64 → Option Char) (addr : BitVec 64) (i : Nat) : Option Char :=
  byte (addr + BitVec.ofNat 64 i)

/-- The bytes up to the first NUL, the limit or the first unmapped byte. -/
def stringAt (byte : BitVec 64 → Option Char) (addr : BitVec 64) (limit : Nat) : Str :=
  text isNul (bytesFrom byte addr) 0 limit

/-- The page size from what `sysconf` answers. -/
def pageSize (sysconf : Int) : Nat := if 0 < sysconf then sysconf.toNat else 4096

namespace TraceeMemory
variable (m : TraceeMemory)

/-- The mapped prefix of the range; nothing when the call fails. -/
def pread64 (addr : BitVec 64) (offset count : Nat) : Str :=
  if m.reads then available (bytesFrom m.byte addr) offset count else []

/-- One word, or `none` when any byte of it is unmapped. -/
def peekData (addr : BitVec 64) (offset : Nat) : Option Str :=
  let word := available (bytesFrom m.byte addr) offset 8
  if word.length = 8 then some word else none

/-- The loop of `read_string_mem`: `none` when it runs out of fuel, `some none` when it returns false. -/
def readChunks (page maxLen : Nat) (addr : BitVec 64) : Nat → Nat → Bool → Str → Option (Option Str)
  | 0, _, _, _ => none
  | fuel + 1, total, firstChunk, out =>
    if total < maxLen then
      let toPageEnd := page - (addr + BitVec.ofNat 64 total).toNat % page
      let chunk := min (min (maxLen - total) toPageEnd) 4096
      let buf := m.pread64 addr total chunk
      if buf = [] then (if firstChunk then some none else some (some out))
      else if buf.any isNul then some (some (out ++ buf.takeWhile fun c => !isNul c))
      else readChunks page maxLen addr fuel (total + buf.length) false (out ++ buf)
    else some (some out)

def readStringMem (fd : MemFd) (page : Nat) (addr : BitVec 64) (maxLen : Nat) : MemFd × Option (Option Str) :=
  match fd with
  | .unusable => (.unusable, some none)
  | .untried =>
    if m.opens then (.opened, m.readChunks page maxLen addr (maxLen + 1) 0 true [])
    else (.unusable, some none)
  | .opened => (.opened, m.readChunks page maxLen addr (maxLen + 1) 0 true [])

/-- The loop over PTRACE_PEEKDATA, for a number of words. -/
def peekWords (addr : BitVec 64) : Nat → Nat → Str
  | _, 0 => []
  | offset, words + 1 =>
    match m.peekData addr offset with
    | none => []
    | some word =>
      if word.any isNul then word.takeWhile (fun c => !isNul c) else word ++ peekWords addr (offset + 8) words

/-- `fd` is `none` when the pid has no entry; the result is `none` when a loop does not return. -/
def readString (fd : Option MemFd) (page : Nat) (addr : BitVec 64) (maxLen : Nat) : Option MemFd × Option Str :=
  let peeked := m.peekWords addr 0 ((maxLen + 7) / 8)
  if addr = 0 then (fd, some [])
  else
    match fd with
    | none => (none, some peeked)
    | some fd =>
      let chunks := m.readStringMem fd page addr maxLen
      (some chunks.1, chunks.2.map fun result => result.getD peeked)

/-! ### Both ways -/

section
variable {m} {page maxLen : Nat} {addr : BitVec 64}

/-- The loop returns for every page size, with the string unless the first byte is unmapped. -/
private theorem readChunks_spec (hreads : m.reads = true) (hpage : 0 < page) {fuel total : Nat}
    {firstChunk : Bool} {out : Str}
    (hfuel : maxLen - total < fuel) : m.readChunks page maxLen addr fuel total firstChunk out =
      some (if firstChunk = true ∧ total < maxLen ∧ bytesFrom m.byte addr total = none then none
        else some (out ++ text isNul (bytesFrom m.byte addr) total (maxLen - total))) := by
  induction fuel generalizing total firstChunk out with
  | zero => exact absurd hfuel (Nat.not_lt_zero _)
  | succ fuel ih =>
    by_cases hmore : total < maxLen
    · have hend : 0 < page - (addr + BitVec.ofNat 64 total).toNat % page := Nat.sub_pos_of_lt (Nat.mod_lt _ hpage)
      obtain ⟨chunk, hchunk⟩ : ∃ chunk, chunk =
          min (min (maxLen - total) (page - (addr + BitVec.ofNat 64 total).toNat % page)) 4096 := ⟨_, rfl⟩
      have hpos : 0 < chunk := by omega
      have hle : chunk ≤ maxLen - total := by omega
      rw [readChunks, if_pos hmore]
      simp only [pread64, hreads, if_true, ← hchunk]
      by_cases hnone : bytesFrom m.byte addr total = none
      · have hbuf : available (bytesFrom m.byte addr) total chunk = [] := available_eq_nil_iff.mpr (.inr hnone)
        have htext : text isNul (bytesFrom m.byte addr) total (maxLen - total) = [] := by
          rw [text, available_eq_nil_iff.mpr (.inr hnone)]
          rfl
        rw [hbuf, htext, if_pos rfl]
        cases firstChunk <;> simp [hmore, hnone]
      · have hbuf : available (bytesFrom m.byte addr) total chunk ≠ [] := fun h =>
          (available_eq_nil_iff.mp h).elim hpos.ne' hnone
        have hcond : ¬(firstChunk = true ∧ total < maxLen ∧ bytesFrom m.byte addr total = none) := fun h => hnone h.2.2
        rw [if_neg hbuf, if_neg hcond]
        by_cases hnul : (available (bytesFrom m.byte addr) total chunk).any isNul = true
        · rw [if_pos hnul]
          have hstop := text_stopped (n := maxLen - total - chunk) (List.any_eq_true.mp hnul)
          rw [Nat.add_sub_cancel' hle] at hstop
          rw [hstop]
          rfl
        · rw [if_neg hnul]
          have hplain : ∀ c ∈ available (bytesFrom m.byte addr) total chunk, isNul c = false := fun c hc =>
            Bool.eq_false_iff.mpr fun hc' => hnul (List.any_eq_true.mpr ⟨c, hc, hc'⟩)
          have hread : 0 < (available (bytesFrom m.byte addr) total chunk).length := List.length_pos_of_ne_nil hbuf
          rw [ih (by omega), if_neg (by simp), text_read hle hplain, Nat.sub_add_eq, List.append_assoc]
    · have hzero : maxLen - total = 0 := by omega
      rw [readChunks, if_neg hmore, if_neg (fun h => hmore h.2.1), hzero, text, available, List.takeWhile_nil,
        List.append_nil]

/-- Word by word, the string loses its last bytes exactly if its last word is cut. -/
private theorem peekWords_iff {offset words : Nat} :
    m.peekWords addr offset words = text isNul (bytesFrom m.byte addr) offset (8 * words) ↔
      (text isNul (bytesFrom m.byte addr) offset (8 * words)).length % 8 = 0 ∨ (available (bytesFrom m.byte addr)
        (offset + (text isNul (bytesFrom m.byte addr) offset (8 * words)).length / 8 * 8) 8).length = 8 := by
  induction words generalizing offset with
  | zero => exact iff_of_true rfl (.inl rfl)
  | succ words ih =>
    rw [peekWords, peekData, Nat.mul_succ, Nat.add_comm (8 * words)]
    by_cases hword : (available (bytesFrom m.byte addr) offset 8).length = 8
    · simp only [hword, if_true]
      by_cases hnul : (available (bytesFrom m.byte addr) offset 8).any isNul = true
      · have hstop := List.any_eq_true.mp hnul
        have hlt := text_length_lt hstop
        rw [if_pos hnul, text_stopped hstop]
        refine iff_of_true rfl (.inr ?_)
        rw [Nat.div_eq_of_lt hlt, Nat.zero_mul, Nat.add_zero, hword]
      · have hplain : ∀ c ∈ available (bytesFrom m.byte addr) offset 8, isNul c = false := fun c hc =>
          Bool.eq_false_iff.mpr fun hc' => hnul (List.any_eq_true.mpr ⟨c, hc, hc'⟩)
        have hplace : ∀ len, offset + (8 + len) / 8 * 8 = offset + 8 + len / 8 * 8 := fun len => by omega
        rw [if_neg hnul, text_add hplain, if_pos hword, List.append_cancel_left_eq, ih, List.length_append, hword,
          Nat.add_mod_left, hplace]
    · have hshort := lt_of_le_of_ne available_length_le hword
      have hlt : (text isNul (bytesFrom m.byte addr) offset 8).length < 8 := text_length_le.trans_lt hshort
      simp only [hword, if_false]
      rw [text_cut hword, Nat.div_eq_of_lt hlt, Nat.mod_eq_of_lt hlt, Nat.zero_mul, Nat.add_zero, or_iff_left hword,
        List.length_eq_zero_iff, eq_comm]

private theorem peekWords_unmapped {offset words : Nat} (h : bytesFrom m.byte addr offset = none) :
    m.peekWords addr offset words = [] := by
  cases words with
  | zero => rfl
  | succ words =>
    rw [peekWords, peekData, available_eq_nil_iff.mpr (.inr h)]
    rfl

/-- Through `/proc/<pid>/mem` the string is always right. -/
private theorem readString_mem (hreads : m.reads = true) {fd : MemFd}
    (hfd : fd = .opened ∨ (fd = .untried ∧ m.opens = true))
    (hpage : 0 < page) (haddr : addr ≠ 0) :
    (m.readString (some fd) page addr maxLen).2 = some (stringAt m.byte addr maxLen) := by
  have hchunks : (m.readStringMem fd page addr maxLen).2 = m.readChunks page maxLen addr (maxLen + 1) 0 true [] := by
    rcases hfd with rfl | ⟨rfl, hopens⟩
    · rfl
    · rw [readStringMem, if_pos hopens]
  rw [readString, if_neg haddr]
  simp only [hchunks]
  rw [readChunks_spec hreads hpage (Nat.lt_succ_self maxLen), Option.map_some]
  split
  · rename_i hfirst
    -- the first byte is unmapped, so neither way gives a byte
    have hstring : stringAt m.byte addr maxLen = [] := by
      rw [stringAt, text, available_eq_nil_iff.mpr (.inr hfirst.2.2)]
      rfl
    rw [Option.getD_none, peekWords_unmapped hfirst.2.2, hstring]
  · rfl

/-- When nothing can be read there, the words are. -/
private theorem readString_peek {fd : Option MemFd}
    (h : m.reads = false ∨ fd = none ∨ fd = some .unusable ∨ (fd = some .untried ∧ m.opens = false)) (haddr : addr ≠ 0)
    (hmax : 0 < maxLen) : (m.readString fd page addr maxLen).2 = some (m.peekWords addr 0 ((maxLen + 7) / 8)) := by
  have hread : ∀ fuel, m.reads = false → m.readChunks page maxLen addr (fuel + 1) 0 true [] = some none := by
    intro fuel hreads
    have hbuf : ∀ count, m.pread64 addr 0 count = [] := fun count => by rw [pread64, hreads]; rfl
    rw [readChunks, if_pos hmax]
    simp only [hbuf, if_true]
  have hmem : ∀ fd', fd = some fd' → (m.readStringMem fd' page addr maxLen).2 = some none := fun fd' hfd => by
    subst hfd
    cases fd' with
    | unusable => rfl
    | opened => exact hread _ (by simpa using h)
    | untried =>
      rw [readStringMem]
      split
      · rename_i hopens
        exact hread _ (by simpa [hopens] using h)
      · rfl
  cases fd with
  | none => rw [readString, if_neg haddr]
  | some fd' =>
    rw [readString, if_neg haddr]
    simp only [hmem fd' rfl]
    rfl

end
end TraceeMemory

/-- The eight bytes in which the string ends are all mapped, unless it ends with a full word. -/
def LastWordMapped (byte : BitVec 64 → Option Char) (addr : BitVec 64) : Prop :=
  (stringAt byte addr 4096).length % 8 = 0 ∨
    ∀ j < 8, (byte (addr + BitVec.ofNat 64 ((stringAt byte addr 4096).length / 8 * 8 + j))).isSome

private theorem pageSize_pos (sysconf : Int) : 0 < pageSize sysconf := by
  rw [pageSize]
  split
  · omega
  · decide

open TraceeMemory in
/-- Whatever can be opened and read, the string is the one in the memory: true of the strings that do not end in a
cut word. -/
theorem readString_iff {byte : BitVec 64 → Option Char} {addr : BitVec 64} (haddr : addr ≠ 0) (sysconf : Int) :
    (∀ opens reads fd, ((⟨byte, opens, reads⟩ : TraceeMemory).readString fd (pageSize sysconf) addr 4096).2 =
      some (stringAt byte addr 4096)) ↔ LastWordMapped byte addr := by
  have hpeek : ∀ opens reads, (⟨byte, opens, reads⟩ : TraceeMemory).peekWords addr 0 512 = stringAt byte addr 4096 ↔
      LastWordMapped byte addr := fun opens reads => by
    have hwords := @peekWords_iff ⟨byte, opens, reads⟩ addr 0 512
    rw [available_full_iff, Nat.zero_add] at hwords
    exact hwords
  constructor
  · intro hall
    have hnone := hall false false none
    rw [readString_peek (.inl rfl) haddr (by decide)] at hnone
    exact (hpeek false false).mp (Option.some.inj hnone)
  · intro hcond opens reads fd
    by_cases hmem : reads = true ∧ (fd = some .opened ∨ (fd = some .untried ∧ opens = true))
    · obtain ⟨rfl, rfl | ⟨rfl, rfl⟩⟩ := hmem
      · exact readString_mem rfl (.inl rfl) (pageSize_pos sysconf) haddr
      · exact readString_mem rfl (.inr ⟨rfl, rfl⟩) (pageSize_pos sysconf) haddr
    · rw [readString_peek ?_ haddr (by decide)]
      · exact congrArg some ((hpeek opens reads).mpr hcond)
      · rcases fd with _ | _ | _ | _ <;> cases opens <;> cases reads <;> simp at hmem ⊢

/-- One mapped page: a letter at its start and three at its end. -/
def pageWithText (a : BitVec 64) : Option Char :=
  if a.toNat / 4096 = 1 then
    match a.toNat with
    | 4096 => some 'x'
    | 8189 => some 'a'
    | 8190 => some 'b'
    | 8191 => some 'c'
    | _ => some '\x00'
  else none

/-- The letter at the start of the page is read both ways. -/
theorem readString_page_start : stringAt pageWithText 4096 4096 = "x".toList ∧ ∀ opens reads fd,
    ((⟨pageWithText, opens, reads⟩ : TraceeMemory).readString fd (pageSize 4096) 4096 4096).2 =
      some (stringAt pageWithText 4096 4096) :=
  ⟨by decide +kernel, (readString_iff (by decide) 4096).mpr (.inr (by decide +kernel))⟩

/-- The letters at its end are read through `/proc/<pid>/mem` only: their word reaches into the unmapped page. -/
theorem cut_word_dropped : stringAt pageWithText 8189 4096 = "abc".toList ∧
    (⟨pageWithText, true, true⟩ : TraceeMemory).readString (some .untried) (pageSize 4096) 8189 4096 =
      (some .opened, some "abc".toList) ∧
    (⟨pageWithText, false, false⟩ : TraceeMemory).readString (some .untried) (pageSize 4096) 8189 4096 =
      (some .unusable, some []) := by
  decide +kernel

end Bdtrace
