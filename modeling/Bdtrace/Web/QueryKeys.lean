import Bdtrace.General.SymbolCuts
import Bdtrace.Web.QueryParams

/-! Which pair of a query a parameter is read from. -/
namespace Bdtrace
open SymbolCuts (cuts)

/-- A query as a client writes it: each key with its encoded value, joined with `&`. -/
def encodePairs (e : PercentEncoding) (pairs : List (Str × Str)) : Str :=
  ['&'].intercalate (pairs.map fun p => p.1 ++ '=' :: e.encode p.2)

/-- The value of the first pair of a key, or the empty string. -/
def valueOf (pairs : List (Str × Str)) (name : Str) : Str := ((pairs.find? fun p => p.1 = name).map (·.2)).getD []

/-- A pair of a query with all the text that stands before its `=`. -/
structure PairHead where
  text : Str
  key : Str
  value : Str
  deriving DecidableEq, Repr

def pairHeads (e : PercentEncoding) : List (Str × Str) → List PairHead
  | [] => []
  | (k, v) :: pairs => ⟨k, k, v⟩ :: (pairHeads e pairs).map fun h =>
      { h with text := k ++ '=' :: e.encode v ++ '&' :: h.text }

/-! ### The search -/

/-- The first occurrence of a name with its `=` is at the first `=` whose front ends in the name. -/
private theorem afterFirst_eq (name s : Str) :
    afterFirst (name ++ ['=']) s = ((cuts '=' s).find? fun c => name.isSuffixOf c.1).map (·.2) := by
  induction s with
  | nil => simp [afterFirst, cuts]
  | cons b s ih =>
    rw [afterFirst]
    by_cases hpre : name ++ ['='] <+: b :: s
    · obtain ⟨r, hr⟩ := hpre
      have hshort : ∀ x : Str, x.length < name.length → name.isSuffixOf x = false := by
        intro x hx
        rw [Bool.eq_false_iff, Ne, List.isSuffixOf_iff_suffix]
        exact fun h => absurd h.length_le (by omega)
      have hself : name.isSuffixOf name = true := List.isSuffixOf_iff_suffix.mpr (List.suffix_refl name)
      have hfind := SymbolCuts.find?_cuts (a := '=') name.isSuffixOf name r hself hshort
      rw [if_pos (List.isPrefixOf_iff_prefix.mpr ⟨r, hr⟩), ← hr, List.append_assoc, List.singleton_append, hfind]
      simp
    · have hsuffix : ∀ c ∈ cuts '=' s, name.isSuffixOf (b :: c.1) = name.isSuffixOf c.1 := by
        intro c hc
        have hne : name ≠ b :: c.1 := by
          rintro rfl
          apply hpre
          rw [SymbolCuts.eq_of_mem_cuts hc]
          exact ⟨c.2, by simp⟩
        rw [Bool.eq_iff_iff, List.isSuffixOf_iff_suffix, List.isSuffixOf_iff_suffix, List.suffix_cons_iff]
        exact or_iff_right hne
      have htail : ((cuts '=' s).map fun c => (b :: c.1, c.2)).find? (fun c => name.isSuffixOf c.1) =
          ((cuts '=' s).find? fun c => name.isSuffixOf c.1).map fun c => (b :: c.1, c.2) := by
        rw [List.find?_map, ← List.find?_congr hsuffix]
        rfl
      have hhead : ∀ c ∈ (if b = '=' then [([], s)] else [] : List (Str × Str)), ¬ name.isSuffixOf c.1 = true := by
        intro c hc hname
        split at hc
        · rename_i hb
          obtain rfl := List.mem_singleton.mp hc
          obtain rfl := List.suffix_nil.mp (List.isSuffixOf_iff_suffix.mp hname)
          exact hpre ⟨s, by rw [hb]; rfl⟩
        · exact absurd hc List.not_mem_nil
      rw [if_neg (mt List.isPrefixOf_iff_prefix.mp hpre), ih, cuts, List.find?_append, List.find?_eq_none.mpr hhead,
        Option.none_or, htail, Option.map_map]
      rfl

/-! ### The pairs of a query -/

section Pairs
variable {e : PercentEncoding} {pairs : List (Str × Str)}

private theorem encode_no_equals (heq : e.keep '=' = false) (s : Str) (hs : ∀ c ∈ s, c.toNat < 256) :
    '=' ∉ e.encode s := by
  have hdigit : ∀ n < 16, e.digit n ≠ '=' := by
    intro n hn hd
    have := e.digit_value n hn
    rw [hd] at this
    cases this
  intro h
  obtain ⟨c, hc, hin⟩ := List.mem_flatMap.mp h
  have hlt := hs c hc
  split at hin
  · rename_i hk
    rw [← List.mem_singleton.mp hin, heq] at hk
    exact Bool.false_ne_true hk
  · simp only [List.mem_cons, List.not_mem_nil, or_false] at hin
    rcases hin with h | h | h
    · exact absurd h (by decide)
    · exact hdigit _ (by omega) h.symm
    · exact hdigit _ (by omega) h.symm

private theorem encodePairs_cons (p : Str × Str) (pairs : List (Str × Str)) : encodePairs e (p :: pairs) =
    p.1 ++ '=' :: (e.encode p.2 ++ if pairs = [] then [] else '&' :: encodePairs e pairs) := by
  cases pairs with
  | nil => simp [encodePairs]
  | cons q pairs => simp [encodePairs, List.intercalate_cons_cons]

/-- Every `=` of a query stands behind a key. -/
private theorem cuts_encodePairs (heq : e.keep '=' = false) (hkeys : ∀ p ∈ pairs, '=' ∉ p.1)
    (hbytes : ∀ p ∈ pairs, ∀ c ∈ p.2, c.toNat < 256) :
    (cuts '=' (encodePairs e pairs)).map (fun c => (c.1, c.2.takeWhile (· ≠ '&'))) =
      (pairHeads e pairs).map fun h => (h.text, e.encode h.value) := by
  induction pairs with
  | nil => rfl
  | cons p pairs ih =>
    have hrest := ih (fun q hq => hkeys q (List.mem_cons_of_mem _ hq)) fun q hq => hbytes q (List.mem_cons_of_mem _ hq)
    have hvalue := encode_no_equals heq p.2 (hbytes p List.mem_cons_self)
    have htake : (e.encode p.2 ++ if pairs = [] then [] else '&' :: encodePairs e pairs).takeWhile (· ≠ '&') =
        e.encode p.2 := by
      rw [List.takeWhile_append_of_pos fun c hc => by
        simpa using fun h : c = '&' => encode_no_separator e p.2 (hbytes p List.mem_cons_self) (h ▸ hc)]
      split <;> simp
    rw [encodePairs_cons, SymbolCuts.cuts_append (hkeys p List.mem_cons_self), SymbolCuts.cuts_cons_self,
      SymbolCuts.cuts_append hvalue, pairHeads]
    simp only [List.map_cons, List.append_nil, htake, List.map_map]
    congr 1
    cases pairs with
    | nil => rfl
    | cons q pairs =>
      rw [if_neg (List.cons_ne_nil _ _), SymbolCuts.cuts_cons_of_ne (by decide)]
      have hmap := congrArg (List.map fun c : Str × Str => (p.1 ++ '=' :: e.encode p.2 ++ '&' :: c.1, c.2)) hrest
      rw [List.map_map, List.map_map] at hmap
      simpa [Function.comp_def] using hmap

private theorem map_pairHeads (e : PercentEncoding) (pairs : List (Str × Str)) :
    (pairHeads e pairs).map (fun h => (h.key, h.value)) = pairs := by
  induction pairs with
  | nil => rfl
  | cons p pairs ih =>
    rw [pairHeads, List.map_cons, List.map_map]
    exact congrArg (p :: ·) ih

/-- A parameter is read from the first pair whose front ends in its name. -/
theorem getQueryParam_encodePairs (heq : e.keep '=' = false) (hkeys : ∀ p ∈ pairs, '=' ∉ p.1)
    (hbytes : ∀ p ∈ pairs, ∀ c ∈ p.2, c.toNat < 256) (name : Str) : getQueryParam (encodePairs e pairs) name =
      (((pairHeads e pairs).find? fun h => name.isSuffixOf h.text).map (·.value)).getD [] := by
  have hfound := congrArg (List.find? fun c : Str × Str => name.isSuffixOf c.1) (cuts_encodePairs heq hkeys hbytes)
  rw [List.find?_map, List.find?_map] at hfound
  have hcut : ((cuts '=' (encodePairs e pairs)).find? fun c => name.isSuffixOf c.1).map
        (fun c => (c.1, c.2.takeWhile (· ≠ '&'))) =
      ((pairHeads e pairs).find? fun h => name.isSuffixOf h.text).map fun h => (h.text, e.encode h.value) := hfound
  rw [getQueryParam, afterFirst_eq]
  cases hc : (cuts '=' (encodePairs e pairs)).find? fun c => name.isSuffixOf c.1 with
  | none =>
    rw [hc, Option.map_none, eq_comm, Option.map_eq_none_iff] at hcut
    rw [hcut]
    rfl
  | some c =>
    rw [hc, Option.map_some, eq_comm, Option.map_eq_some_iff] at hcut
    obtain ⟨h, hh, heqs⟩ := hcut
    have hp : (h.key, h.value) ∈ pairs := map_pairHeads e pairs ▸ List.mem_map_of_mem (List.mem_of_find?_eq_some hh)
    rw [hh]
    show urlDecode (c.2.takeWhile (· ≠ '&')) = h.value
    rw [← (Prod.mk.inj heqs).2, urlDecode_encode e (hbytes _ hp)]

/-- In front of a key stands nothing, or a separator. -/
private theorem text_eq {h : PairHead} (hh : h ∈ pairHeads e pairs) :
    h.text = h.key ∨ ∃ u, h.text = u ++ '&' :: h.key := by
  induction pairs generalizing h with
  | nil => exact absurd hh List.not_mem_nil
  | cons p pairs ih =>
    rcases List.mem_cons.mp hh with rfl | hh
    · exact .inl rfl
    · obtain ⟨g, hg, rfl⟩ := List.mem_map.mp hh
      right
      rcases ih hg with heq | ⟨u, hu⟩
      · exact ⟨p.1 ++ '=' :: e.encode p.2, by rw [heq]⟩
      · exact ⟨p.1 ++ '=' :: e.encode p.2 ++ '&' :: u, by simp [hu]⟩

private theorem key_suffix_text {h : PairHead} (hh : h ∈ pairHeads e pairs) : h.key <:+ h.text := by
  rcases text_eq hh with heq | ⟨u, hu⟩
  · exact heq ▸ List.suffix_refl _
  · exact ⟨u ++ ['&'], by simp [hu]⟩

private theorem valueOf_eq (e : PercentEncoding) (pairs : List (Str × Str)) (name : Str) :
    valueOf pairs name = (((pairHeads e pairs).find? fun h => h.key = name).map (·.value)).getD [] := by
  have hmap : pairs.find? (fun p => p.1 = name) = ((pairHeads e pairs).find? fun h => h.key = name).map
      fun h => (h.key, h.value) := by
    conv_lhs => rw [← map_pairHeads e pairs, List.find?_map]
    rfl
  rw [valueOf, hmap, Option.map_map]
  rfl

end Pairs

/-- When the first pair whose front ends in the name has another key, it carries the value asked for. -/
def Unshadowed (e : PercentEncoding) (pairs : List (Str × Str)) (name : Str) : Prop :=
  ∀ before h after, pairHeads e pairs = before ++ h :: after → (∀ g ∈ before, ¬ name <:+ g.text) → name <:+ h.text →
    h.key ≠ name → h.value = valueOf pairs name

/-- A parameter is what the first pair of its key was given exactly if no pair shadows that one. -/
theorem getQueryParam_iff_unshadowed (e : PercentEncoding)
    (hsuper : ∀ c, e.keep c = true → encodeURIComponent.keep c = true) (pairs : List (Str × Str))
    (hkeys : ∀ p ∈ pairs, ∀ c ∈ p.1, c ≠ '&' ∧ c ≠ '=' ∧ c ≠ '%' ∧ c ≠ '+')
    (hbytes : ∀ p ∈ pairs, ∀ c ∈ p.2, 0 < c.toNat ∧ c.toNat < 256) (name : Str) :
    getQueryParam (encodePairs e pairs) name = valueOf pairs name ↔ Unshadowed e pairs name := by
  have heq : e.keep '=' = false := by
    rw [Bool.eq_false_iff]
    exact fun h => absurd (hsuper _ h) (by decide)
  rw [getQueryParam_encodePairs heq (fun p hp h => (hkeys p hp _ h).2.1 rfl) fun p hp c hc => (hbytes p hp c hc).2]
  cases hfind : (pairHeads e pairs).find? fun h => name.isSuffixOf h.text with
  | none =>
    have hnone : ∀ h ∈ pairHeads e pairs, ¬ name <:+ h.text := by
      intro h hh hs
      exact List.find?_eq_none.mp hfind h hh (List.isSuffixOf_iff_suffix.mpr hs)
    have hvalue : valueOf pairs name = [] := by
      rw [valueOf_eq e, List.find?_eq_none.mpr]
      · rfl
      · intro h hh hkey
        exact hnone h hh (of_decide_eq_true hkey ▸ key_suffix_text hh)
    refine iff_of_true hvalue.symm fun before h after hsplit _ hs => absurd hs (hnone h ?_)
    rw [hsplit]
    exact List.mem_append_right _ List.mem_cons_self
  | some h =>
    show h.value = _ ↔ _
    obtain ⟨hs, before, after, hsplit, hbefore⟩ := List.find?_eq_some_iff_append.mp hfind
    rw [List.isSuffixOf_iff_suffix] at hs
    have hearlier : ∀ g ∈ before, ¬ name <:+ g.text := by
      intro g hg hgs
      have := hbefore g hg
      rw [List.isSuffixOf_iff_suffix.mpr hgs] at this
      exact absurd this (by decide)
    constructor
    · intro hvalue before' h' after' hsplit' hearlier' hs' _
      have hfind' : (pairHeads e pairs).find? (fun h => name.isSuffixOf h.text) = some h' := by
        apply List.find?_eq_some_iff_append.mpr
        refine ⟨List.isSuffixOf_iff_suffix.mpr hs', before', after', hsplit', fun g hg => ?_⟩
        simpa [← List.isSuffixOf_iff_suffix] using hearlier' g hg
      rw [hfind, Option.some.injEq] at hfind'
      rwa [← hfind']
    · intro hclean
      by_cases hkey : h.key = name
      · have hfirst : (pairHeads e pairs).find? (fun h => h.key = name) = some h := by
          apply List.find?_eq_some_iff_append.mpr
          refine ⟨decide_eq_true hkey, before, after, hsplit, fun g hg => ?_⟩
          have hgmem : g ∈ pairHeads e pairs := hsplit ▸ List.mem_append_left _ hg
          simpa using fun hgk : g.key = name => hearlier g hg (hgk ▸ key_suffix_text hgmem)
        rw [valueOf_eq e, hfirst]
        rfl
      · exact hclean before h after hsplit hearlier hs hkey

theorem getQueryParam_iff_unshadowed_prefix :
    Unshadowed encodeURIComponent [("tree".toList, "1".toList), ("prefix".toList, "/a b/=".toList)]
      "prefix".toList := by
  have hbytes : ([("tree".toList, "1".toList), ("prefix".toList, "/a b/=".toList)].all
      fun p => p.2.all fun c => decide (0 < c.toNat ∧ c.toNat < 256)) = true := rfl
  simp only [List.all_eq_true, decide_eq_true_eq] at hbytes
  exact (getQueryParam_iff_unshadowed encodeURIComponent (fun _ h => h) _ (by simp) hbytes _).mp (by decide)

/-- A key that ends in the name comes first. -/
theorem getQueryParam_shadowed :
    getQueryParam (encodePairs encodeURIComponent [("stop".toList, "5".toList), ("top".toList, "7".toList)])
      "top".toList = "5".toList ∧
    valueOf [("stop".toList, "5".toList), ("top".toList, "7".toList)] "top".toList = "7".toList := by
  decide

end Bdtrace
