import Bdtrace.Web.JsonWriter
import Mathlib.Data.List.TakeWhile
import Mathlib.Tactic.IntervalCases

/-! What the JSON writer writes is JSON, and means the tree that was written. -/
namespace Bdtrace

mutual

/-- The text of a tree. -/
def JsonTree.text : JsonTree → Str
  | .str s => escape s.1
  | .int v => decimal v.toInt
  | .int64 v => decimal v.toInt
  | .bool v => if v then "true".toList else "false".toList
  | .null => "null".toList
  | .arr items => '[' :: itemsText false items ++ [']']
  | .obj members => '\x7b' :: membersText false members ++ ['\x7d']

/-- The items, each after a comma except the first one unless `comma` is set. -/
def itemsText : Bool → List JsonTree → Str
  | _, [] => []
  | comma, t :: ts => (if comma then [','] else []) ++ t.text ++ itemsText true ts

def membersText : Bool → List (CStr × JsonTree) → Str
  | _, [] => []
  | comma, (k, t) :: ms => (if comma then [','] else []) ++ escape k.1 ++ ':' :: t.text ++ membersText true ms

end

namespace JsonWriter

private theorem comma_buf (w : JsonWriter) : w.comma.buf = w.buf ++ if w.needComma then [','] else [] := by
  simp only [comma]
  split <;> simp

private theorem comma_stack (w : JsonWriter) : w.comma.stack = w.stack := by
  simp only [comma]
  split <;> rfl

private theorem put_eq (w : JsonWriter) (text : Str) : w.put text = ⟨w.comma.buf ++ text, w.stack, true⟩ := by
  simp only [put, comma_stack]

mutual

/-- The calls for a tree append its text, after a comma where one is due. -/
private theorem write_eq : (t : JsonTree) → (w : JsonWriter) → write t w = ⟨w.comma.buf ++ t.text, w.stack, true⟩
  | .str s, w => put_eq w _
  | .int v, w => put_eq w _
  | .int64 v, w => put_eq w _
  | .bool v, w => put_eq w _
  | .null, w => put_eq w _
  | .arr items, w => by
    obtain ⟨hbuf, hstack⟩ := writeItems_eq items w.beginArray
    rw [write, endArray, hbuf, hstack]
    simp [beginArray, comma_stack, JsonTree.text]
  | .obj members, w => by
    obtain ⟨hbuf, hstack⟩ := writeMembers_eq members w.beginObject
    rw [write, endObject, hbuf, hstack]
    simp [beginObject, comma_stack, JsonTree.text]

private theorem writeItems_eq : (ts : List JsonTree) → (w : JsonWriter) →
    (writeItems ts w).buf = w.buf ++ itemsText w.needComma ts ∧ (writeItems ts w).stack = w.stack
  | [], w => by simp [writeItems, itemsText]
  | t :: ts, w => by
    obtain ⟨hbuf, hstack⟩ := writeItems_eq ts (write t w)
    rw [writeItems, hbuf, hstack, write_eq t w]
    simp [itemsText, comma_buf]

private theorem writeMembers_eq : (ms : List (CStr × JsonTree)) → (w : JsonWriter) →
    (writeMembers ms w).buf = w.buf ++ membersText w.needComma ms ∧ (writeMembers ms w).stack = w.stack
  | [], w => by simp [writeMembers, membersText]
  | (k, t) :: ms, w => by
    obtain ⟨hbuf, hstack⟩ := writeMembers_eq ms (write t (w.key k.1))
    rw [writeMembers, hbuf, hstack, write_eq t (w.key k.1)]
    simp [membersText, comma_buf, key, comma_stack]

end

end JsonWriter

namespace Json

/-! ### Strings -/

private theorem parseString_control {n : Nat} (h : n < 0x20) (rest : Str) :
    parseString (escapeChar (Char.ofNat n) ++ rest) = (parseString rest).map fun p => (Char.ofNat n :: p.1, p.2) := by
  interval_cases n <;> rfl

private theorem parseString_escapeChar (c : Char) (rest : Str) :
    parseString (escapeChar c ++ rest) = (parseString rest).map fun p => (c :: p.1, p.2) := by
  by_cases hc : c.toNat < 0x20
  · have h := parseString_control hc rest
    rwa [Char.ofNat_toNat] at h
  by_cases hq : c = '\"'
  · subst hq
    rfl
  by_cases hb : c = '\\'
  · subst hb
    rfl
  have hplain : escapeChar c = [c] := by
    have hne : ∀ d : Char, d.toNat < 0x20 → c ≠ d := fun d hd heq => hc (heq ▸ hd)
    simp only [escapeChar, hq, hb, hc, hne '\x08' (by decide), hne '\x0c' (by decide), hne '\n' (by decide),
      hne '\r' (by decide), hne '\t' (by decide), if_false]
  rw [hplain, List.singleton_append, parseString.eq_def]
  split <;> simp_all

private theorem parseString_escape (s : CStr) (rest : Str) :
    ∃ body, escape s.1 = '\"' :: body ∧ parseString (body ++ rest) = some (s.1, rest) := by
  have hall : s.1.takeWhile (· ≠ '\x00') = s.1 := by
    apply List.takeWhile_eq_self_iff.mpr
    intro c hc
    simp only [ne_eq, decide_not, Bool.not_eq_eq_eq_not, Bool.not_true, decide_eq_false_iff_not]
    rintro rfl
    exact s.2 hc
  refine ⟨s.1.flatMap escapeChar ++ ['\"'], by rw [escape, hall, List.cons_append], ?_⟩
  rw [List.append_assoc, List.singleton_append]
  clear hall
  generalize s.1 = cs
  induction cs with
  | nil => rfl
  | cons c cs ih => rw [List.flatMap_cons, List.append_assoc, parseString_escapeChar, ih, Option.map_some]

/-! ### Numbers -/

/-- What can follow a value. -/
def Follow (r : Str) : Prop := r = [] ∨ ∃ c s, r = c :: s ∧ (c = ',' ∨ c = ']' ∨ c = '\x7d')

private theorem follow_dropWhile {r : Str} (h : Follow r) : r.takeWhile isDigit = [] ∧ r.dropWhile isDigit = r := by
  rcases h with rfl | ⟨c, s, rfl, rfl | rfl | rfl⟩ <;> exact ⟨rfl, rfl⟩

private theorem follow_head {r : Str} (h : Follow r) :
    r.head? ≠ some '.' ∧ r.head? ≠ some 'e' ∧ r.head? ≠ some 'E' := by
  rcases h with rfl | ⟨c, s, rfl, rfl | rfl | rfl⟩ <;> simp

/-- The digits that `decimal` prints for a natural number. -/
def digitChars (n : Nat) : Str := if n = 0 then ['0'] else (Nat.digits 10 n).reverse.map fun d => Char.ofNat (48 + d)

private theorem digit_char {d : Nat} (h : d < 10) :
    isDigit (Char.ofNat (48 + d)) = true ∧ (Char.ofNat (48 + d)).toNat - 48 = d := by
  interval_cases d <;> decide

private theorem digitChars_spec (n : Nat) : (∀ c ∈ digitChars n, isDigit c = true) ∧ digitChars n ≠ [] ∧
    ¬ ((digitChars n).head? = some '0' ∧ digitChars n ≠ ['0']) ∧
    (digitChars n).foldl (fun n c => n * 10 + (c.toNat - 48)) 0 = n := by
  simp only [digitChars]
  split
  · rename_i h
    subst h
    refine ⟨fun c hc => ?_, by decide, by decide, by decide⟩
    obtain rfl := List.mem_singleton.mp hc
    decide
  · rename_i hn
    have hdig : ∀ d ∈ Nat.digits 10 n, d < 10 := fun d hd => Nat.digits_lt_base (by decide) hd
    have hnil : Nat.digits 10 n ≠ [] := Nat.digits_ne_nil_iff_ne_zero.mpr hn
    refine ⟨fun c hc => ?_, by simpa using hnil, ?_, ?_⟩
    · obtain ⟨d, hd, rfl⟩ := List.mem_map.mp hc
      exact (digit_char (hdig d (List.mem_reverse.mp hd))).1
    · rintro ⟨hhead, -⟩
      rw [List.head?_map, List.head?_reverse, List.getLast?_eq_getLast_of_ne_nil hnil, Option.map_some,
        Option.some.injEq] at hhead
      have hlast := Nat.getLast_digit_ne_zero 10 hn
      have hlt := hdig _ (List.getLast_mem hnil)
      have hval := (digit_char hlt).2
      rw [hhead] at hval
      exact hlast hval.symm
    · rw [List.foldl_map, List.foldl_reverse]
      have hfold : ∀ l : List Nat, (∀ d ∈ l, d < 10) →
          l.foldr (fun d n => n * 10 + ((Char.ofNat (48 + d)).toNat - 48)) 0 = Nat.ofDigits 10 l := fun l => by
        induction l with
        | nil => exact fun _ => rfl
        | cons d l ih =>
          intro hl
          rw [List.foldr_cons, ih fun e he => hl e (List.mem_cons_of_mem _ he),
            (digit_char (hl d List.mem_cons_self)).2,
            Nat.ofDigits_cons]
          exact (Nat.add_comm _ _).trans (congrArg (d + ·) (Nat.mul_comm _ _))
      rw [hfold _ hdig, Nat.ofDigits_digits]

theorem parseNat_digitChars (n : Nat) {r : Str} (h : Follow r) : parseNat (digitChars n ++ r) = some (n, r) := by
  obtain ⟨hdig, hnil, hzero, hval⟩ := digitChars_spec n
  obtain ⟨htake, hdrop⟩ := follow_dropWhile h
  obtain ⟨hdot, he, hE⟩ := follow_head h
  have htake' : (digitChars n ++ r).takeWhile isDigit = digitChars n := by
    rw [List.takeWhile_append_of_pos hdig, htake, List.append_nil]
  have hdrop' : (digitChars n ++ r).dropWhile isDigit = r := by
    rw [List.dropWhile_append_of_pos hdig, hdrop]
  simp only [parseNat, htake', hdrop', hnil, hzero, hdot, he, hE, or_self, if_false, hval]

theorem decimal_eq (v : Int) : decimal v = (if v < 0 then ['-'] else []) ++ digitChars v.natAbs := by
  simp only [decimal, digitChars, Int.natAbs_eq_zero]

/-- An integer starts with a minus sign or a digit. -/
theorem decimal_head (v : Int) : ∃ c s, decimal v = c :: s ∧ (c = '-' ∨ isDigit c = true) := by
  obtain ⟨hdig, hnil, -, -⟩ := digitChars_spec v.natAbs
  obtain ⟨c, s, hcs⟩ := List.exists_cons_of_ne_nil hnil
  rw [decimal_eq]
  by_cases hv : v < 0
  · exact ⟨'-', digitChars v.natAbs, by simp [hv], .inl rfl⟩
  · exact ⟨c, s, by simp [hv, hcs], .inr (hdig c (by simp [hcs]))⟩

private theorem parseNumber_decimal (v : Int) {r : Str} (h : Follow r) :
    parseNumber (decimal v ++ r) = some (.num v, r) := by
  have hnat := parseNat_digitChars v.natAbs h
  rw [decimal_eq]
  by_cases hv : v < 0
  · have habs : -(v.natAbs : Int) = v := by omega
    simp only [hv, if_true, List.cons_append, List.nil_append, parseNumber, hnat, Option.map_some, habs]
  · have habs : (v.natAbs : Int) = v := by omega
    obtain ⟨hdig, hnil, -, -⟩ := digitChars_spec v.natAbs
    obtain ⟨c, s, hcs⟩ := List.exists_cons_of_ne_nil hnil
    have hne : c ≠ '-' := by
      rintro rfl
      exact absurd (hdig '-' (by simp [hcs])) (by decide)
    simp only [hv, if_false, List.nil_append]
    rw [hcs, List.cons_append] at hnat ⊢
    rw [parseNumber.eq_def]
    split
    · rename_i heq
      exact absurd (List.cons.inj heq).1 hne
    · rw [hnat, Option.map_some, habs]

/-! ### Values -/

private theorem skipWs_cons {c : Char} (h : isWs c = false) (s : Str) : skipWs (c :: s) = c :: s := by
  simp only [skipWs, List.dropWhile_cons, h, Bool.false_eq_true, if_false]

/-- A value starts neither with white space nor with a closing bracket. -/
private theorem text_head (t : JsonTree) : ∃ c s, t.text = c :: s ∧ isWs c = false ∧ c ≠ ']' ∧ c ≠ '\x7d' := by
  have hnum : ∀ v : Int, ∃ c s, decimal v = c :: s ∧ isWs c = false ∧ c ≠ ']' ∧ c ≠ '\x7d' := by
    intro v
    obtain ⟨c, s, hcs, hc⟩ := decimal_head v
    refine ⟨c, s, hcs, ?_⟩
    rcases hc with rfl | hc
    · decide
    refine ⟨?_, ?_, ?_⟩
    · rw [← Bool.not_eq_true]
      intro hw
      simp only [isWs, Bool.or_eq_true, decide_eq_true_eq] at hw
      rcases hw with ((rfl | rfl) | rfl) | rfl <;> exact absurd hc (by decide)
    · rintro rfl
      exact absurd hc (by decide)
    · rintro rfl
      exact absurd hc (by decide)
  cases t with
  | str s => exact ⟨_, _, rfl, by decide⟩
  | int v => exact hnum v.toInt
  | int64 v => exact hnum v.toInt
  | bool v => cases v <;> exact ⟨_, _, rfl, by decide⟩
  | null => exact ⟨_, _, rfl, by decide⟩
  | arr items => exact ⟨_, _, rfl, by decide⟩
  | obj members => exact ⟨_, _, rfl, by decide⟩

private theorem parseValue_number (fuel : Nat) {c : Char} (hc : c = '-' ∨ isDigit c = true) (s : Str) :
    parseValue (fuel + 1) (c :: s) = parseNumber (c :: s) := by
  have hne : ∀ d : Char, d ≠ '-' → isDigit d = false → c ≠ d := by
    rintro d hd hdig rfl
    rcases hc with rfl | hc
    · exact hd rfl
    · rw [hdig] at hc
      exact absurd hc (by decide)
  have hws : isWs c = false := by
    simp only [isWs, hne ' ' (by decide) (by decide), hne '\t' (by decide) (by decide),
      hne '\n' (by decide) (by decide),
      hne '\r' (by decide) (by decide), decide_false, Bool.or_self]
  rw [parseValue, skipWs_cons hws]
  split
  case h_7 => rfl
  all_goals
    rename_i heq
    exact absurd (List.cons.inj heq).1 (hne _ (by decide) (by decide))

private theorem parseValue_decimal (fuel : Nat) (v : Int) {r : Str} (h : Follow r) :
    parseValue (fuel + 1) (decimal v ++ r) = some (.num v, r) := by
  obtain ⟨c, s, hcs, hc⟩ := decimal_head v
  have hnum := parseNumber_decimal v h
  rw [hcs, List.cons_append] at hnum ⊢
  rw [parseValue_number fuel hc, hnum]

/-- After the first item the text goes on with a comma, unless it was the last one. -/
private theorem itemsText_true (ts : List JsonTree) : ts ≠ [] → itemsText true ts = ',' :: itemsText false ts := by
  cases ts with
  | nil => exact fun h => absurd rfl h
  | cons t ts => exact fun _ => rfl

private theorem membersText_true (ms : List (CStr × JsonTree)) :
    ms ≠ [] → membersText true ms = ',' :: membersText false ms := by
  cases ms with
  | nil => exact fun h => absurd rfl h
  | cons m ms => exact fun _ => by simp [membersText]

private theorem follow_items (ts : List JsonTree) (r : Str) : Follow (itemsText true ts ++ ']' :: r) := by
  cases ts with
  | nil => exact .inr ⟨_, _, rfl, .inr (.inl rfl)⟩
  | cons t ts => exact .inr ⟨_, _, rfl, .inl rfl⟩

private theorem follow_members (ms : List (CStr × JsonTree)) (r : Str) :
    Follow (membersText true ms ++ '\x7d' :: r) := by
  cases ms with
  | nil => exact .inr ⟨_, _, rfl, .inr (.inr rfl)⟩
  | cons m ms => exact .inr ⟨_, _, by simp [membersText]; rfl, .inl rfl⟩

mutual

/-- The parser reads the text of a tree, and stops where it ends. -/
private theorem parseValue_text : (t : JsonTree) → {fuel : Nat} → {r : Str} → t.text.length ≤ fuel → Follow r →
    parseValue fuel (t.text ++ r) = some (t.json, r)
  | t, 0, r, hfuel, _ => by
    obtain ⟨c, s, hcs, -⟩ := text_head t
    simp [hcs] at hfuel
  | .str s, fuel + 1, r, _, _ => by
    obtain ⟨body, hbody, hparse⟩ := parseString_escape s r
    rw [JsonTree.text, hbody, List.cons_append, parseValue, skipWs_cons (by decide)]
    simp only [hparse, Option.map_some, JsonTree.json]
  | .int v, fuel + 1, r, _, hr => parseValue_decimal fuel v.toInt hr
  | .int64 v, fuel + 1, r, _, hr => parseValue_decimal fuel v.toInt hr
  | .bool v, fuel + 1, r, _, _ => by cases v <;> rfl
  | .null, fuel + 1, r, _, _ => rfl
  | .arr [], fuel + 1, r, _, _ => rfl
  | .arr (t :: ts), fuel + 1, r, hfuel, _ => by
    have hlen : (itemsText false (t :: ts)).length + 1 ≤ fuel := by
      simp only [JsonTree.text, List.length_cons, List.length_append, List.length_nil] at hfuel
      omega
    have hitems := @parseItems_text (t :: ts) (List.cons_ne_nil _ _) fuel r hlen
    obtain ⟨c, s, hcs, hws, hclose, -⟩ := text_head t
    have htext : (JsonTree.arr (t :: ts)).text ++ r = '[' :: (itemsText false (t :: ts) ++ ']' :: r) := by
      simp [JsonTree.text]
    have hcons : itemsText false (t :: ts) ++ ']' :: r = c :: (s ++ (itemsText true ts ++ ']' :: r)) := by
      simp [itemsText, hcs]
    rw [htext, parseValue, skipWs_cons (by decide)]
    rw [hcons] at hitems ⊢
    simp only [skipWs_cons hws]
    split
    · rename_i heq
      exact absurd (List.cons.inj heq).1 hclose
    · rw [hitems, Option.map_some, JsonTree.json]
  | .obj [], fuel + 1, r, _, _ => rfl
  | .obj ((k, t) :: ms), fuel + 1, r, hfuel, _ => by
    have hlen : (membersText false ((k, t) :: ms)).length + 1 ≤ fuel := by
      simp only [JsonTree.text, List.length_cons, List.length_append, List.length_nil] at hfuel
      omega
    have hmembers := @parseMembers_text ((k, t) :: ms) (List.cons_ne_nil _ _) fuel r hlen
    have htext : (JsonTree.obj ((k, t) :: ms)).text ++ r =
        '\x7b' :: (membersText false ((k, t) :: ms) ++ '\x7d' :: r) := by
      simp [JsonTree.text]
    obtain ⟨s, hcons⟩ : ∃ s, membersText false ((k, t) :: ms) ++ '\x7d' :: r = '\"' :: s := ⟨_, rfl⟩
    rw [htext, parseValue, skipWs_cons (by decide)]
    rw [hcons] at hmembers ⊢
    simp only [@skipWs_cons '\"' (by decide)]
    split
    · rename_i heq
      exact absurd (List.cons.inj heq).1 (by decide)
    · rw [hmembers, Option.map_some, JsonTree.json]

private theorem parseItems_text : (ts : List JsonTree) → ts ≠ [] → {fuel : Nat} → {r : Str} →
    (itemsText false ts).length + 1 ≤ fuel → parseItems fuel (itemsText false ts ++ ']' :: r) = some (jsonItems ts, r)
  | [], h, _, _, _ => absurd rfl h
  | _ :: _, _, 0, _, hfuel => absurd hfuel (by omega)
  | t :: ts, _, fuel + 1, r, hfuel => by
    have hlen : t.text.length + (itemsText true ts).length ≤ fuel := by
      simp only [itemsText, Bool.false_eq_true, if_false, List.nil_append, List.length_append] at hfuel
      omega
    have hvalue := @parseValue_text t fuel (itemsText true ts ++ ']' :: r) (by omega) (follow_items ts r)
    have htext : itemsText false (t :: ts) ++ ']' :: r = t.text ++ (itemsText true ts ++ ']' :: r) := by
      simp [itemsText]
    rw [htext, parseItems, hvalue, Option.bind_some]
    cases ts with
    | nil => rfl
    | cons u us =>
      have hrest := itemsText_true (u :: us) (List.cons_ne_nil _ _)
      have htail := @parseItems_text (u :: us) (List.cons_ne_nil _ _) fuel r (by
        rw [hrest, List.length_cons] at hlen
        omega)
      simp only [hrest, List.cons_append, @skipWs_cons ',' (by decide)]
      rw [htail, Option.map_some]
      rfl

private theorem parseMembers_text : (ms : List (CStr × JsonTree)) → ms ≠ [] → {fuel : Nat} → {r : Str} →
    (membersText false ms).length + 1 ≤ fuel →
    parseMembers fuel (membersText false ms ++ '\x7d' :: r) = some (jsonMembers ms, r)
  | [], h, _, _, _ => absurd rfl h
  | _ :: _, _, 0, _, hfuel => absurd hfuel (by omega)
  | (k, t) :: ms, _, fuel + 1, r, hfuel => by
    obtain ⟨body, hbody, hparse⟩ := parseString_escape k (':' :: (t.text ++ (membersText true ms ++ '\x7d' :: r)))
    have hlen : t.text.length + (membersText true ms).length ≤ fuel := by
      simp only [membersText, hbody, Bool.false_eq_true, if_false, List.nil_append, List.length_append,
        List.length_cons] at hfuel
      omega
    have hvalue := @parseValue_text t fuel (membersText true ms ++ '\x7d' :: r) (by omega) (follow_members ms r)
    have htext : membersText false ((k, t) :: ms) ++ '\x7d' :: r =
        '\"' :: (body ++ ':' :: (t.text ++ (membersText true ms ++ '\x7d' :: r))) := by
      simp [membersText, hbody]
    rw [htext, parseMembers, skipWs_cons (by decide)]
    simp only [hparse, Option.bind_some, @skipWs_cons ':' (by decide), hvalue]
    cases ms with
    | nil => rfl
    | cons m ms =>
      have hrest := membersText_true (m :: ms) (List.cons_ne_nil _ _)
      have htail := @parseMembers_text (m :: ms) (List.cons_ne_nil _ _) fuel r (by
        rw [hrest, List.length_cons] at hlen
        omega)
      simp only [hrest, List.cons_append, @skipWs_cons ',' (by decide)]
      rw [htail, Option.map_some]
      rfl

end

/-- What the writer writes for a tree parses back to that tree. -/
theorem json_round_trip (t : JsonTree) : Json.parse (JsonWriter.write t {}).str = some t.json := by
  have htext : (JsonWriter.write t {}).str = t.text := by
    rw [JsonWriter.str, JsonWriter.write_eq]
    rfl
  have hparse := @parseValue_text t t.text.length [] (Nat.le_refl _) (.inl rfl)
  rw [List.append_nil] at hparse
  rw [htext, parse, hparse]
  rfl

end Json
end Bdtrace
