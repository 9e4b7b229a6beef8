import Bdtrace.General.Words
import Bdtrace.Tracer.PathNames
import Bdtrace.Web.FileListings

/-! Paths as the names between their slashes: what is at a path, and what is below it. -/
namespace Bdtrace
open Words (words)

/-- `fullPath` of a row of the drawn tree. -/
def fullPathOf (pfx name : Str) : Str :=
  if name = ['/'] then ['/'] else if pfx = [] ∨ pfx = ['/'] then pfx ++ name else pfx ++ '/' :: name

/-- What can stand between two slashes. -/
def IsName (name : Str) : Prop := name ≠ [] ∧ '/' ∉ name

theorem isName_of_mem {name path : Str} (h : name ∈ words '/' path) : IsName name :=
  ⟨(Words.mem_words h).1, (Words.mem_words h).2.1⟩

def pathText (absolute : Bool) (parts : List Str) : Str := (if absolute then ['/'] else []) ++ ['/'].intercalate parts

section Paths
variable {absolute : Bool} {parts : List Str}

theorem intercalate_names (h : ∀ name ∈ parts, IsName name) (hne : parts ≠ []) :
    ∃ c text, ['/'].intercalate parts = c :: text ∧ c ≠ '/' := by
  cases parts with
  | nil => exact absurd rfl hne
  | cons name parts =>
    obtain ⟨hname, hslash⟩ := h name List.mem_cons_self
    cases name with
    | nil => exact absurd rfl hname
    | cons c name =>
      rw [List.mem_cons, not_or] at hslash
      exact ⟨c, _, List.intercalate_cons_cons_left, Ne.symm hslash.1⟩

theorem words_pathText (h : ∀ name ∈ parts, IsName name) : words '/' (pathText absolute parts) = parts := by
  rw [pathText]
  cases absolute with
  | false => exact Words.words_intercalate h
  | true =>
    rw [if_pos rfl, List.singleton_append, Words.words_cons_self]
    exact Words.words_intercalate h

theorem rooted_pathText (h : ∀ name ∈ parts, IsName name) (hne : absolute = true ∨ parts ≠ []) :
    rooted (pathText absolute parts) = absolute := by
  cases absolute with
  | true => rfl
  | false =>
    obtain ⟨c, text, htext, hc⟩ := intercalate_names h (hne.resolve_left nofun)
    simp [pathText, rooted, htext, hc]

theorem pathText_injective {absolute' : Bool} {parts' : List Str} (h : ∀ name ∈ parts, IsName name)
    (h' : ∀ name ∈ parts', IsName name) (hne : absolute = true ∨ parts ≠ []) (hne' : absolute' = true ∨ parts' ≠ [])
    (heq : pathText absolute parts = pathText absolute' parts') : absolute = absolute' ∧ parts = parts' := by
  constructor
  · rw [← rooted_pathText h hne, heq, rooted_pathText h' hne']
  · rw [← @words_pathText absolute parts h, heq, words_pathText h']

/-- The path of a row from the path of the row above it. -/
theorem fullPathOf_pathText (h : ∀ name ∈ parts, IsName name) {name : Str} (hname : IsName name) :
    fullPathOf (pathText absolute parts) name = pathText absolute (parts ++ [name]) := by
  have hroot : name ≠ ['/'] := by
    rintro rfl
    exact hname.2 List.mem_cons_self
  rw [fullPathOf, if_neg hroot]
  by_cases hne : parts = []
  · subst hne
    cases absolute <;> simp [pathText]
  · obtain ⟨c, text, htext, hc⟩ := intercalate_names h hne
    have hlong : ¬ (pathText absolute parts = [] ∨ pathText absolute parts = ['/']) := by
      cases absolute <;> simp [pathText, htext, hc]
    have hjoin : ['/'].intercalate (parts ++ [name]) = ['/'].intercalate parts ++ '/' :: name := by
      clear htext hlong h
      induction parts with
      | nil => exact absurd rfl hne
      | cons part parts ih =>
        by_cases hparts : parts = []
        · simp [hparts]
        · rw [List.cons_append, List.intercalate_cons_of_ne_nil (by simp), ih hparts,
            List.intercalate_cons_of_ne_nil hparts]
          simp
    rw [if_neg hlong, pathText, pathText, hjoin, List.append_assoc]

theorem mem_pathText {c : Char} (hc : c ∈ pathText absolute parts) : c = '/' ∨ ∃ name ∈ parts, c ∈ name := by
  have hjoin : c ∈ ['/'].intercalate parts → c = '/' ∨ ∃ name ∈ parts, c ∈ name := by
    clear hc
    induction parts with
    | nil => exact fun hin => absurd hin List.not_mem_nil
    | cons name parts ih =>
      intro hin
      by_cases hparts : parts = []
      · subst hparts
        rw [List.intercalate_singleton] at hin
        exact .inr ⟨name, List.mem_cons_self, hin⟩
      · rw [List.intercalate_cons_of_ne_nil hparts, List.mem_append, List.mem_append, List.mem_singleton] at hin
        rcases hin with (hin | hin) | hin
        · exact .inr ⟨name, List.mem_cons_self, hin⟩
        · exact .inl hin
        · exact (ih hin).imp_right fun ⟨other, hother, hc⟩ => ⟨other, List.mem_cons_of_mem _ hother, hc⟩
  rcases List.mem_append.mp hc with hroot | hin
  · split at hroot
    · exact .inl (List.mem_singleton.mp hroot)
    · cases hroot
  · exact hjoin hin

private theorem getLast?_pathText (h : ∀ name ∈ parts, IsName name) (hne : parts ≠ []) :
    (pathText absolute parts).getLast? ≠ some '/' := by
  obtain ⟨before, name, rfl⟩ : ∃ before name, parts = before ++ [name] :=
    ⟨parts.dropLast, parts.getLast hne, (List.dropLast_append_getLast hne).symm⟩
  have hname : IsName name := h name (List.mem_append_right _ List.mem_cons_self)
  have hroot : name ≠ ['/'] := by
    rintro rfl
    exact hname.2 List.mem_cons_self
  rw [← fullPathOf_pathText (fun n hn => h n (List.mem_append_left _ hn)) hname, fullPathOf, if_neg hroot]
  intro hlast
  split at hlast
  · rw [List.getLast?_append_of_ne_nil _ hname.1] at hlast
    exact hname.2 (List.mem_of_getLast? hlast)
  · rw [List.append_cons, List.getLast?_append_of_ne_nil _ hname.1] at hlast
    exact hname.2 (List.mem_of_getLast? hlast)

/-- What lies below the path of a row. -/
theorem completePrefix_pathText {absolute' : Bool} {parts' : List Str} (h : ∀ name ∈ parts, IsName name)
    (h' : ∀ name ∈ parts', IsName name) (hne : absolute = true ∨ parts ≠ []) :
    completePrefix (pathText absolute parts) <+: pathText absolute' parts' ↔
      absolute = absolute' ∧ parts <+: parts' ∧ (parts = [] ∨ parts ≠ parts') := by
  have hfirst : ∀ {ps : List Str} {text : Str}, (∀ name ∈ ps, IsName name) →
      ¬ '/' :: text <+: ['/'].intercalate ps := by
    intro ps text hps hpre
    by_cases hnil : ps = []
    · subst hnil
      exact absurd (List.prefix_nil.mp hpre) (List.cons_ne_nil _ _)
    · obtain ⟨c, rest, hrest, hc⟩ := intercalate_names hps hnil
      rw [hrest] at hpre
      exact hc (List.cons_prefix_cons.mp hpre).1.symm
  by_cases hparts : parts = []
  · obtain rfl := hne.resolve_right fun hn => hn hparts
    subst hparts
    have hroot : completePrefix (pathText true []) = ['/'] := by decide
    rw [hroot, and_iff_right List.nil_prefix, and_iff_left (.inl rfl)]
    cases absolute' with
    | true => exact iff_of_true (List.cons_prefix_cons.mpr ⟨rfl, List.nil_prefix⟩) rfl
    | false => exact iff_of_false (hfirst h') (by decide)
  · have hprefix := Words.intercalate_prefix_iff hparts (fun name hin => (h name hin).2) fun name hin => (h' name hin).2
    have hcomplete : completePrefix (pathText absolute parts) = pathText absolute parts ++ ['/'] := by
      obtain ⟨c, text, htext, -⟩ := intercalate_names h hparts
      exact if_pos ⟨by simp [pathText, htext], getLast?_pathText h hparts⟩
    rw [hcomplete, or_iff_right hparts, ← hprefix, pathText, pathText, List.append_assoc]
    cases absolute with
    | true =>
      cases absolute' with
      | true => simp [List.cons_prefix_cons]
      | false => exact iff_of_false (hfirst h') fun heq => Bool.noConfusion heq.1
    | false =>
      cases absolute' with
      | true =>
        obtain ⟨c, text, htext, hc⟩ := intercalate_names h hparts
        refine iff_of_false (fun hpre => ?_) fun heq => Bool.noConfusion heq.1
        rw [htext] at hpre
        exact hc (List.cons_prefix_cons.mp hpre).1
      | false => simp

end Paths

end Bdtrace
