import Mathlib.Data.List.Forall2

/-! Text as the bytes of its UTF-8 encoding, a byte being a character below 256, and the decoder of browsers, which puts
U+FFFD for what is malformed. -/
namespace Utf8

def byte (b : UInt8) : Char := Char.ofNat b.toNat

def encode (text : List Char) : List Char := text.flatMap fun c => (String.utf8EncodeChar c).map byte

def Valid (bytes : List Char) : Prop := ∃ text, bytes = encode text

/-- The least and the greatest value of a byte. -/
abbrev Span := Nat × Nat

def Span.Holds (span : Span) (c : Char) : Prop := span.1 ≤ c.toNat ∧ c.toNat ≤ span.2

instance (span : Span) (c : Char) : Decidable (span.Holds c) := inferInstanceAs (Decidable (_ ∧ _))

/-- What has to follow a first byte; `none` for a byte that is never first. -/
def following (b : Nat) : Option (List Span) :=
  if b < 0x80 then some []
  else if b < 0xc2 then none
  else if b < 0xe0 then some [(0x80, 0xbf)]
  else if b < 0xf0 then
    some [(if b = 0xe0 then 0xa0 else 0x80, if b = 0xed then 0x9f else 0xbf), (0x80, 0xbf)]
  else if b < 0xf5 then
    some [(if b = 0xf0 then 0x90 else 0x80, if b = 0xf4 then 0x8f else 0xbf), (0x80, 0xbf), (0x80, 0xbf)]
  else none

/-- The bytes of U+FFFD. -/
def replacement : List Char := encode ['\uFFFD']

/-- The rest of the decoding after the bytes `seen` of a character, where the bytes `due` are still to come. -/
def decode (seen : List Char) : List Span → List Char → List Char
  | [], [] => []
  | _ :: _, [] => replacement
  | due, c :: rest =>
    -- a byte that does not fit ends the character and is the first of the next one
    let first (_ : Unit) := match following c.toNat with
      | none => replacement ++ decode [] [] rest
      | some [] => c :: decode [] [] rest
      | some due => decode [c] due rest
    match due with
    | [] => first ()
    | span :: due =>
      if span.Holds c then
        if due = [] then seen ++ c :: decode [] [] rest else decode (seen ++ [c]) due rest
      else replacement ++ first ()

def decoded (bytes : List Char) : List Char := decode [] [] bytes

example : decoded ['c', 'a', 'f', '\xe9', '.', 'c'] = encode "caf\uFFFD.c".toList := by decide

/-- Orders the bytes of two texts as `sort` orders the texts, by their UTF-16 units: the characters from U+E000 to
U+FFFF come after those that take four bytes. -/
def utf16Before : List Char → List Char → Bool
  | _, [] => false
  | [], _ :: _ => true
  | a :: as, b :: bs =>
    let rank (c : Char) := if c.toNat = 0xee ∨ c.toNat = 0xef then c.toNat + 0x10 else c.toNat
    if a = b then utf16Before as bs else rank a < rank b

private theorem toNat_ofNat {n : Nat} (h : n < 256) : (Char.ofNat n).toNat = n := by
  have hvalid : n.isValidChar := .inl (by omega)
  rw [Char.ofNat, dif_pos hvalid]
  exact UInt32.toNat_ofNatLT

private theorem toNat_byte (b : UInt8) : (byte b).toNat = b.toNat := toNat_ofNat b.toNat_lt

private theorem toNat_byte_ofNat {n : Nat} (h : n < 256) : (byte (UInt8.ofNat n)).toNat = n := by
  rw [toNat_byte, UInt8.toNat_ofNat_of_lt' h]

private theorem decode_due {due : List Span} {bytes : List Char}
    (h : List.Forall₂ Span.Holds due bytes) (hdue : due ≠ [])
    (seen rest : List Char) : decode seen due (bytes ++ rest) = seen ++ bytes ++ decode [] [] rest := by
  induction h generalizing seen with
  | nil => exact absurd rfl hdue
  | @cons span c due bytes hc hrest ih =>
    rw [List.cons_append, decode, if_pos hc]
    by_cases hlast : due = []
    · subst hlast
      rw [List.forall₂_nil_left_iff.mp hrest, if_pos rfl]
      simp
    · rw [if_neg hlast, ih hlast]
      simp

private theorem following_one {b : Nat} (h : b < 0x80) : following b = some [] := if_pos h

private theorem following_two {b : Nat} (h : 0xc2 ≤ b) (h' : b < 0xe0) : following b = some [(0x80, 0xbf)] := by
  rw [following, if_neg (by omega), if_neg (by omega), if_pos h']

private theorem following_three {b : Nat} (h : 0xe0 ≤ b) (h' : b < 0xf0) : following b =
    some [(if b = 0xe0 then 0xa0 else 0x80, if b = 0xed then 0x9f else 0xbf), (0x80, 0xbf)] := by
  rw [following, if_neg (by omega), if_neg (by omega), if_neg (by omega), if_pos h']

private theorem following_four {b : Nat} (h : 0xf0 ≤ b) (h' : b < 0xf5) : following b =
    some [(if b = 0xf0 then 0x90 else 0x80, if b = 0xf4 then 0x8f else 0xbf), (0x80, 0xbf), (0x80, 0xbf)] := by
  rw [following, if_neg (by omega), if_neg (by omega), if_neg (by omega), if_neg (by omega), if_pos h']

/-- A later byte of an encoding. -/
private theorem tail_holds (n : Nat) : Span.Holds (0x80, 0xbf) (byte (UInt8.ofNat (n % 64 + 0x80))) := by
  rw [Span.Holds, toNat_byte_ofNat (by omega)]
  omega

/-- The bytes of one character are what its first byte asks for. -/
private theorem following_encode (c : Char) :
    ∃ first bytes due, encode [c] = first :: bytes ∧ following first.toNat = some due ∧
    List.Forall₂ Span.Holds due bytes := by
  have hscalar : c.val.toNat < 0xd800 ∨ 0xdfff < c.val.toNat ∧ c.val.toNat < 0x110000 := c.valid
  rw [encode, List.flatMap_singleton, String.utf8EncodeChar]
  generalize c.val.toNat = n at hscalar
  split
  · have hfirst := toNat_byte_ofNat (n := n) (by omega)
    exact ⟨_, _, _, rfl, following_one (by omega), .nil⟩
  split
  · have hfirst := toNat_byte_ofNat (n := n / 64 % 32 + 0xc0) (by omega)
    exact ⟨_, _, _, rfl, following_two (by omega) (by omega), .cons (tail_holds n) .nil⟩
  split
  · have hfirst := toNat_byte_ofNat (n := n / 4096 % 16 + 0xe0) (by omega)
    have hsecond := toNat_byte_ofNat (n := n / 64 % 64 + 0x80) (by omega)
    refine ⟨_, _, _, rfl, following_three (by omega) (by omega), .cons ?_ (.cons (tail_holds n) .nil)⟩
    rw [Span.Holds]
    split <;> split <;> omega
  · have hfirst := toNat_byte_ofNat (n := n / 262144 % 8 + 0xf0) (by omega)
    have hsecond := toNat_byte_ofNat (n := n / 4096 % 64 + 0x80) (by omega)
    refine ⟨_, _, _, rfl, following_four (by omega) (by omega),
      .cons ?_ (.cons (tail_holds _) (.cons (tail_holds n) .nil))⟩
    rw [Span.Holds]
    split <;> split <;> omega

private theorem decode_first {first : Char} {bytes : List Char} {due : List Span}
    (hfirst : following first.toNat = some due)
    (hbytes : List.Forall₂ Span.Holds due bytes) (rest : List Char) :
    decode [] [] (first :: bytes ++ rest) = first :: bytes ++ decode [] [] rest := by
  cases hbytes with
  | nil => simp [decode, hfirst]
  | cons hc hrest =>
    have hdue := decode_due (.cons hc hrest) (List.cons_ne_nil _ _) [first] rest
    simpa [decode, hfirst] using hdue

private theorem decoded_encode (text : List Char) : decoded (encode text) = encode text := by
  induction text with
  | nil => rfl
  | cons c text ih =>
    obtain ⟨first, bytes, due, hc, hfirst, hbytes⟩ := following_encode c
    have hsplit : encode (c :: text) = encode [c] ++ encode text := by simp [encode]
    rw [hsplit, hc, decoded, decode_first hfirst hbytes]
    exact congrArg _ ih

/-- Decoding changes nothing but malformed bytes. -/
theorem Valid.decoded_eq {bytes : List Char} (h : Valid bytes) : decoded bytes = bytes := by
  obtain ⟨text, rfl⟩ := h
  exact decoded_encode text

theorem Valid.toNat_lt {bytes : List Char} (h : Valid bytes) : ∀ c ∈ bytes, c.toNat < 256 := by
  obtain ⟨text, rfl⟩ := h
  intro c hc
  obtain ⟨a, -, hin⟩ := List.mem_flatMap.mp hc
  obtain ⟨b, -, rfl⟩ := List.mem_map.mp hin
  rw [toNat_byte]
  exact b.toNat_lt

theorem valid_of_ascii {bytes : List Char} (h : ∀ c ∈ bytes, c.toNat < 0x80) : Valid bytes := by
  refine ⟨bytes, ?_⟩
  induction bytes with
  | nil => rfl
  | cons c bytes ih =>
    have hc := h c List.mem_cons_self
    have hbyte : String.utf8EncodeChar c = [UInt8.ofNat c.toNat] := if_pos (Nat.le_of_lt_succ hc)
    rw [encode, List.flatMap_cons, hbyte, List.map_singleton, byte,
      UInt8.toNat_ofNat_of_lt' (Nat.lt_trans hc (by decide)), Char.ofNat_toNat]
    exact congrArg _ (ih fun c hin => h c (List.mem_cons_of_mem _ hin))

end Utf8
