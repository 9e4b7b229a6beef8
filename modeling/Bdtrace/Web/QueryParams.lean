import Bdtrace.CStrings
import Bdtrace.Web.JsonWriter

/-! Query parameters: how the web server decodes them, and how a client encodes them. -/
namespace Bdtrace

/-- The digits that `strtol` reads in base 16. Two characters leave no room for digits behind `0x`. -/
def hexDigits (s : Str) : Int :=
  (s.takeWhile fun c => (Json.hexValue c).isSome).foldl (fun n c => n * 16 + ((Json.hexValue c).getD 0 : Nat)) 0

/-- `strtol(hex, NULL, 16)` on two characters. -/
def strtol16 (hex : Str) : Int :=
  match hex.dropWhile isSpace with
  | '-' :: s => -hexDigits s
  | '+' :: s => hexDigits s
  | s => hexDigits s

/-- The conversion to `char`. -/
def toByte (v : Int) : Char := Char.ofNat (v % 256).toNat

/-- The loop that decodes a value: an escape needs two characters behind the percent sign. -/
def urlDecode : Str → Str
  | [] => []
  | '%' :: a :: b :: s => toByte (strtol16 [a, b]) :: urlDecode s
  | c :: s => (if c = '+' then ' ' else c) :: urlDecode s

/-- What stands behind the first occurrence of `key`. -/
def afterFirst (key : Str) : Str → Option Str
  | [] => if key = [] then some [] else none
  | c :: s => if key.isPrefixOf (c :: s) then some ((c :: s).drop key.length) else afterFirst key s

def getQueryParam (query name : Str) : Str :=
  match afterFirst (name ++ ['=']) query with
  | none => []
  | some rest => urlDecode (rest.takeWhile (· ≠ '&'))

/-! ### Percent encoding -/

/-- A client's encoding of bytes: those of `keep` stand for themselves, the others are escaped. -/
structure PercentEncoding where
  keep : Char → Bool
  digit : Nat → Char
  keep_safe : ∀ c, keep c = true → c ≠ '%' ∧ c ≠ '+' ∧ c ≠ '&'
  digit_value : ∀ n < 16, Json.hexValue (digit n) = some n

def PercentEncoding.encode (e : PercentEncoding) (s : Str) : Str :=
  s.flatMap fun c => if e.keep c then [c] else ['%', e.digit (c.toNat / 16), e.digit (c.toNat % 16)]

/-- The encoding that the browser applies. -/
def encodeURIComponent : PercentEncoding where
  keep c := c.isAlphanum || c ∈ ['-', '_', '.', '!', '~', '*', '\'', '(', ')']
  digit n := if n < 10 then Char.ofNat (48 + n) else Char.ofNat (55 + n)
  keep_safe c h := by
    refine ⟨?_, ?_, ?_⟩ <;> rintro rfl <;> exact absurd h (by decide)
  digit_value := by decide

/-- A hexadecimal digit is no white space, sign, percent sign or separator. -/
private theorem hexValue_spec {c : Char} {n : Nat} (h : Json.hexValue c = some n) :
    isSpace c = false ∧ c ≠ '-' ∧ c ≠ '+' ∧ c ≠ '&' := by
  have hne : ∀ d, Json.hexValue d = none → c ≠ d := by
    rintro d hd rfl
    rw [hd] at h
    cases h
  refine ⟨?_, hne '-' (by decide), hne '+' (by decide), hne '&' (by decide)⟩
  simp only [isSpace, hne ' ' (by decide), hne '\t' (by decide), hne '\n' (by decide), hne '\x0b' (by decide),
    hne '\x0c' (by decide), hne '\r' (by decide), decide_false, Bool.or_self]

private theorem strtol16_digits {a b : Char} {m n : Nat} (ha : Json.hexValue a = some m)
    (hb : Json.hexValue b = some n) :
    strtol16 [a, b] = m * 16 + n := by
  obtain ⟨hspace, hminus, hplus, -⟩ := hexValue_spec ha
  have hdigits : hexDigits [a, b] = m * 16 + n := by simp [hexDigits, List.takeWhile, ha, hb]
  rw [strtol16, List.dropWhile_cons_of_neg (by simp [hspace])]
  split
  · rename_i heq
    exact absurd (List.cons.inj heq).1 hminus
  · rename_i heq
    exact absurd (List.cons.inj heq).1 hplus
  · exact hdigits

/-- Every byte string is decoded from its encoding. -/
theorem urlDecode_encode (e : PercentEncoding) {s : Str} (hs : ∀ c ∈ s, c.toNat < 256) :
    urlDecode (e.encode s) = s := by
  induction s with
  | nil => rfl
  | cons c s ih =>
    have hc := hs c List.mem_cons_self
    have hrest := ih fun d hd => hs d (List.mem_cons_of_mem _ hd)
    rw [PercentEncoding.encode, List.flatMap_cons, ← PercentEncoding.encode]
    cases hk : e.keep c with
    | true =>
      obtain ⟨hpercent, hplus, -⟩ := e.keep_safe c hk
      simp only [if_true, List.singleton_append]
      rw [urlDecode.eq_def]
      split
      · rename_i heq
        cases heq
      · rename_i heq
        exact absurd (List.cons.inj heq).1 hpercent
      · rename_i heq
        obtain ⟨rfl, rfl⟩ := List.cons.inj heq
        rw [if_neg hplus, hrest]
    | false =>
      have hval := strtol16_digits (e.digit_value (c.toNat / 16) (by omega)) (e.digit_value (c.toNat % 16) (by omega))
      simp only [Bool.false_eq_true, if_false, List.cons_append, List.nil_append, urlDecode, hrest, hval]
      have hnum : ((((c.toNat / 16 : Nat) : Int) * 16 + ((c.toNat % 16 : Nat) : Int)) % 256).toNat = c.toNat := by omega
      rw [toByte, hnum, Char.ofNat_toNat]

theorem encode_no_separator (e : PercentEncoding) (s : Str) (hs : ∀ c ∈ s, c.toNat < 256) : '&' ∉ e.encode s := by
  intro h
  obtain ⟨c, hc, hin⟩ := List.mem_flatMap.mp h
  have hlt := hs c hc
  split at hin
  · rename_i hk
    exact (e.keep_safe c hk).2.2 (List.mem_singleton.mp hin).symm
  · have h1 := (hexValue_spec (e.digit_value (c.toNat / 16) (by omega))).2.2.2
    have h2 := (hexValue_spec (e.digit_value (c.toNat % 16) (by omega))).2.2.2
    simp only [List.mem_cons, List.not_mem_nil, or_false] at hin
    rcases hin with h | h | h
    · exact absurd h (by decide)
    · exact h1 h.symm
    · exact h2 h.symm

/-- The first parameter of a query is read back. -/
theorem getQueryParam_encode (e : PercentEncoding) (name s : Str) (hs : ∀ c ∈ s, c.toNat < 256) (more : Option Str) :
    getQueryParam (name ++ '=' :: e.encode s ++ more.elim [] ('&' :: ·)) name = s := by
  have hfirst : afterFirst (name ++ ['=']) (name ++ '=' :: e.encode s ++ more.elim [] ('&' :: ·)) =
      some (e.encode s ++ more.elim [] ('&' :: ·)) := by
    have hassoc : name ++ '=' :: e.encode s ++ more.elim [] ('&' :: ·) =
        (name ++ ['=']) ++ (e.encode s ++ more.elim [] ('&' :: ·)) := by simp
    have hpre : (name ++ ['=']).isPrefixOf ((name ++ ['=']) ++ (e.encode s ++ more.elim [] ('&' :: ·))) = true :=
      List.isPrefixOf_iff_prefix.mpr (List.prefix_append _ _)
    rw [hassoc]
    generalize hkey : name ++ ['='] = key at hpre ⊢
    cases key with
    | nil => simp at hkey
    | cons c key => rw [List.cons_append, afterFirst, ← List.cons_append, hpre, if_pos rfl, List.drop_left]
  have htake : (e.encode s ++ more.elim [] ('&' :: ·)).takeWhile (· ≠ '&') = e.encode s := by
    rw [List.takeWhile_append_of_pos fun c hc => by simpa using fun h : c = '&' => encode_no_separator e s hs (h ▸ hc)]
    cases more <;> simp
  rw [getQueryParam, hfirst]
  simp only [htake]
  exact urlDecode_encode e hs

end Bdtrace
