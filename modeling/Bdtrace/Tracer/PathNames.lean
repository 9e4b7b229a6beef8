import Bdtrace.Tracer.PathScan

/-! The paths that `normalize_path` answers: their components, and how its fast path goes with the slow one. -/
namespace Bdtrace

/-! ### The slow path -/

private theorem pushComponent_skip {absolute : Bool} {parts : List Str} {comp : Str} (h : ¬(comp ≠ [] ∧ comp ≠ ['.'])) :
    pushComponent absolute parts comp = parts := if_pos (not_and_or.mp h |>.imp not_not.mp not_not.mp)

/-- The stack, with the last component first, against the list. -/
private theorem pushComponent_push {absolute : Bool} {parts : List Str} {comp : Str} (h : comp ≠ [] ∧ comp ≠ ['.']) :
    (pushComponent absolute parts comp).reverse = Cancel.push dotDot absolute parts.reverse comp := by
  rw [pushComponent.eq_def, if_neg (not_or.mpr h), Cancel.push, ite_not]
  by_cases hup : comp = dotDot
  · subst hup
    rw [if_pos rfl, if_pos (show dotDot = ['.', '.'] from rfl)]
    cases parts with
    | nil => cases absolute <;> rfl
    | cons last rest =>
      rw [List.reverse_cons, List.getLastD_eq_getLast?, List.getLast?_concat, Option.getD_some, List.dropLast_concat]
      by_cases hlast : last = dotDot
      · cases absolute <;> simp [hlast, dotDot]
      · have hlast' : ¬last = ['.', '.'] := hlast
        simp [hlast, hlast']
  · have hup' : ¬comp = ['.', '.'] := hup
    rw [if_neg hup, if_neg hup', List.reverse_cons]

/-- The rejoined components; nothing left becomes `.`. -/
def joinComponents (root : Bool) (comps : List Str) : Str :=
  let result := (if root then ['/'] else []) ++ ['/'].intercalate comps
  if result = [] then ['.'] else result

theorem splitAndRejoin_eq (path : Str) : splitAndRejoin path = joinComponents (rooted path)
    (reducedComponents path) := by
  have hparts : ∀ (pieces parts : List Str), (pieces.foldl (pushComponent (rooted path)) parts).reverse =
      (pieces.filter fun comp => comp ≠ [] ∧ comp ≠ ['.']).foldl (Cancel.push dotDot (rooted path)) parts.reverse := by
    intro pieces
    induction pieces with
    | nil => exact fun _ => rfl
    | cons comp pieces ih =>
      intro parts
      by_cases h : comp ≠ [] ∧ comp ≠ ['.']
      · rw [List.foldl_cons, ih, List.filter_cons_of_pos (by simpa using h), List.foldl_cons, pushComponent_push h]
      · rw [List.foldl_cons, pushComponent_skip h, ih, List.filter_cons_of_neg (by simpa using h)]
  exact congrArg (joinComponents (rooted path)) (hparts (path.splitOn '/') [])

/-- What can stand between two slashes of a normalised path. -/
def IsComponent (comp : Str) : Prop := comp ≠ [] ∧ comp ≠ ['.'] ∧ '/' ∉ comp

private theorem isComponent_of_mem {path comp : Str} (h : comp ∈ pathComponents path) : IsComponent comp := by
  obtain ⟨hmem, hkept⟩ := List.mem_filter.mp h
  obtain ⟨hne, hdot⟩ := of_decide_eq_true hkept
  exact ⟨hne, hdot, slash_notMem_splitOn comp hmem⟩

theorem isComponent_of_reduced {path comp : Str} (h : comp ∈ reducedComponents path) : IsComponent comp :=
  isComponent_of_mem (Cancel.mem_reduce h)

section
variable {comps : List Str} (h : ∀ comp ∈ comps, IsComponent comp) (root : Bool)
include h

theorem intercalate_head (hne : comps ≠ []) :
    ∃ c text, ['/'].intercalate comps = c :: text ∧ c ≠ '/' := by
  cases comps with
  | nil => exact absurd rfl hne
  | cons comp comps =>
    obtain ⟨hcomp, -, hslash⟩ := h comp List.mem_cons_self
    cases comp with
    | nil => exact absurd rfl hcomp
    | cons c comp =>
      rw [List.mem_cons, not_or] at hslash
      exact ⟨c, _, List.intercalate_cons_cons_left, Ne.symm hslash.1⟩

private theorem joinComponents_of_ne_nil (hne : comps ≠ []) :
    joinComponents root comps = (if root then ['/'] else []) ++ ['/'].intercalate comps := by
  obtain ⟨c, text, htext, -⟩ := intercalate_head h hne
  rw [joinComponents, if_neg (by simp [htext])]

private theorem joinComponents_splitOn : (joinComponents root comps).splitOn '/' =
    if comps = [] then (if root then [[], []] else [['.']]) else (if root then [[]] else []) ++ comps := by
  by_cases hne : comps = []
  · subst hne
    cases root <;> rfl
  · rw [joinComponents_of_ne_nil h root hne, if_neg hne]
    have hsplit : (['/'].intercalate comps).splitOn '/' = comps :=
      List.splitOn_intercalate '/' (fun comp hcomp => (h comp hcomp).2.2) hne
    cases root with
    | false => exact hsplit
    | true =>
      rw [if_pos rfl, if_pos rfl, List.singleton_append, List.splitOn_cons_eq_if_modifyHead, hsplit]
      rfl

private theorem rooted_joinComponents : rooted (joinComponents root comps) = root := by
  by_cases hne : comps = []
  · subst hne
    cases root <;> rfl
  · obtain ⟨c, text, htext, hc⟩ := intercalate_head h hne
    rw [joinComponents_of_ne_nil h root hne, htext]
    cases root <;> simp [rooted, hc]

private theorem pathComponents_joinComponents : pathComponents (joinComponents root comps) = comps := by
  have hkept : ∀ comp ∈ comps, comp ≠ [] ∧ comp ≠ ['.'] := fun comp hcomp => ⟨(h comp hcomp).1, (h comp hcomp).2.1⟩
  rw [pathComponents, joinComponents_splitOn h root]
  by_cases hne : comps = []
  · subst hne
    cases root <;> rfl
  · rw [if_neg hne, List.filter_append, List.filter_eq_self.mpr fun comp hcomp => decide_eq_true (hkept comp hcomp)]
    cases root <;> rfl

end

private theorem splitAndRejoin_components (path : Str) : pathComponents (splitAndRejoin path) = reducedComponents path ∧
    rooted (splitAndRejoin path) = rooted path := by
  rw [splitAndRejoin_eq]
  exact ⟨pathComponents_joinComponents (fun _ => isComponent_of_reduced) _,
    rooted_joinComponents (fun _ => isComponent_of_reduced) _⟩

private theorem reducedComponents_reduced (path : Str) : Cancel.Reduced dotDot (rooted path) (reducedComponents path) :=
  Cancel.reduce_reduced _

private theorem splitAndRejoin_idem (path : Str) : splitAndRejoin (splitAndRejoin path) = splitAndRejoin path := by
  obtain ⟨hcomps, hroot⟩ := splitAndRejoin_components path
  have hreduced : reducedComponents (splitAndRejoin path) = reducedComponents path := by
    rw [reducedComponents, hcomps, hroot]
    exact Cancel.reduce_of_reduced (reducedComponents_reduced path)
  rw [splitAndRejoin_eq (splitAndRejoin path), hreduced, hroot, ← splitAndRejoin_eq]

/-! ### Both paths together -/

/-- What the fast path keeps and the slow one drops. -/
def keptSlash (path : Str) : Bool := !needsNormalize true path && path.getLast? == some '/' && path != ['/']

private theorem plain_reduced {path : Str} (h : Plain (path.splitOn '/')) :
    reducedComponents path = (path.splitOn '/').filter (· ≠ []) := by
  have hcomps : pathComponents path = (path.splitOn '/').filter (· ≠ []) := by
    refine List.filter_congr fun comp hcomp => decide_eq_decide.mpr ?_
    simp [(h.dots comp hcomp).1]
  have hup : dotDot ∉ pathComponents path := fun hmem => (h.dots dotDot (List.mem_of_mem_filter hmem)).2 rfl
  rw [reducedComponents, Cancel.reduce_of_reduced (Cancel.reduced_of_notMem hup), hcomps]

private theorem joinComponents_true (comps : List Str) :
    joinComponents true comps = '/' :: ['/'].intercalate comps := by
  simp [joinComponents]

private theorem joinComponents_false {first : Str} (hfirst : first ≠ []) (comps : List Str) :
    joinComponents false (first :: comps) = ['/'].intercalate (first :: comps) := by
  cases first with
  | nil => exact absurd rfl hfirst
  | cons c first => simp [joinComponents]

/-- A path of at least two pieces that needs no work. -/
private theorem plain_pieces {first last : Str} {mid : List Str} (hmid : [] ∉ mid) :
    ['/'].intercalate (first :: (mid ++ [last])) =
      joinComponents (decide (first = [])) ((first :: (mid ++ [last])).filter (· ≠ [])) ++
        (if last = [] ∧ ['/'].intercalate (first :: (mid ++ [last])) ≠ ['/'] then ['/'] else []) := by
  have hkeep : mid.filter (· ≠ []) = mid := List.filter_eq_self.mpr fun comp hcomp =>
    decide_eq_true fun hnil => hmid (hnil ▸ hcomp)
  by_cases hfirst : first = []
  · subst hfirst
    have hhead : ['/'].intercalate ([] :: (mid ++ [last])) = '/' :: ['/'].intercalate (mid ++ [last]) :=
      List.intercalate_cons_of_ne_nil (by simp)
    rw [hhead, decide_eq_true rfl, joinComponents_true, List.filter_cons_of_neg (by simp), List.filter_append, hkeep]
    by_cases hlast : last = []
    · subst hlast
      cases mid with
      | nil => rfl
      | cons comp mid =>
        rw [intercalate_concat (List.cons_ne_nil comp mid)]
        simp
    · simp [hlast]
  · rw [decide_eq_false hfirst, List.filter_cons_of_pos (by simpa using hfirst), joinComponents_false hfirst,
      List.filter_append, hkeep]
    by_cases hlast : last = []
    · subst hlast
      have hsnoc : ['/'].intercalate (first :: (mid ++ [[]])) = ['/'].intercalate (first :: mid) ++ ['/'] :=
        intercalate_concat (List.cons_ne_nil first mid) []
      have hne : ['/'].intercalate (first :: mid) ≠ [] := by
        cases first with
        | nil => exact absurd rfl hfirst
        | cons c first => simp
      rw [hsnoc]
      simp [hne]
    · simp [hlast]

/-- A path that needs no work, apart from its last slash. -/
private theorem plain_path {path : Str} (hne : path ≠ []) (h : needsNormalize true path = false) :
    path = splitAndRejoin path ++ (if path.getLast? = some '/' ∧ path ≠ ['/'] then ['/'] else []) := by
  have hplain := (needsNormalize_eq_false_iff path).mp h
  have hslash : ∀ comp ∈ path.splitOn '/', '/' ∉ comp := slash_notMem_splitOn
  have hpath : ['/'].intercalate (path.splitOn '/') = path := List.intercalate_splitOn '/'
  rw [splitAndRejoin_eq, plain_reduced hplain]
  cases hpieces : path.splitOn '/' with
  | nil => exact absurd hpieces (List.splitOn_ne_nil _ _)
  | cons first rest =>
    rw [hpieces] at hpath hplain hslash
    rcases rest.eq_nil_or_concat' with rfl | ⟨mid, last, rfl⟩
    · rw [List.intercalate_singleton] at hpath
      subst hpath
      have hno := hslash first List.mem_cons_self
      have hroot : rooted first = false := by
        cases first with
        | nil => rfl
        | cons c first =>
          rw [List.mem_cons, not_or] at hno
          simp [rooted, Ne.symm hno.1]
      have hlast : first.getLast? ≠ some '/' := fun hl => hno (List.mem_of_getLast? hl)
      simp [hroot, hne, hlast, joinComponents]
    · have hmid : [] ∉ mid := by simpa using hplain.inner
      have hroot : rooted path = decide (first = []) := by
        have hno := hslash first List.mem_cons_self
        rw [← hpath]
        cases first with
        | nil => cases mid <;> simp [rooted]
        | cons c first =>
          rw [List.mem_cons, not_or] at hno
          simp [rooted, Ne.symm hno.1]
      have hlast : path.getLast? = some '/' ↔ last = [] := by
        have hno := hslash last (by simp)
        rw [← hpath, ← List.cons_append, intercalate_concat (List.cons_ne_nil first mid)]
        rcases last.eq_nil_or_concat' with rfl | ⟨text, c, rfl⟩
        · simp
        · rw [← List.cons_append, ← List.append_assoc, List.getLast?_concat]
          have hc : c ≠ '/' := fun hc => hno (by simp [hc])
          simp [hc]
      have hjoin := @plain_pieces first last mid hmid
      rw [hpath] at hjoin
      simpa only [hroot, hlast] using hjoin

theorem normalizePath_eq {path : Str} (hne : path ≠ []) :
    normalizePath path = splitAndRejoin path ++ (if keptSlash path then ['/'] else []) := by
  cases h : needsNormalize true path with
  | true => simp [normalizePath_slow h, keptSlash, h]
  | false =>
    rw [normalizePath_fast h]
    simpa [keptSlash, h] using plain_path hne h

/-- The shape of a normalised path: `.` only as the whole path, nothing between two slashes, and `..` only in
front of a relative path. -/
structure NormalForm (path : Str) : Prop where
  dot : ['.'] ∈ path.splitOn '/' → path = ['.']
  inner : [] ∉ (path.splitOn '/').tail.dropLast
  ups : Cancel.Reduced dotDot (rooted path) (pathComponents path)

private theorem splitAndRejoin_normal (path : Str) : NormalForm (splitAndRejoin path) := by
  obtain ⟨hcomps, hroot⟩ := splitAndRejoin_components path
  have hcomponents : ∀ comp ∈ reducedComponents path, IsComponent comp := fun _ => isComponent_of_reduced
  have hsplit := joinComponents_splitOn hcomponents (rooted path)
  have hmem : ∀ comp ∈ reducedComponents path, comp ≠ [] ∧ comp ≠ ['.'] := fun comp hcomp =>
    ⟨(isComponent_of_reduced hcomp).1, (isComponent_of_reduced hcomp).2.1⟩
  refine ⟨fun hdot => ?_, fun hnil => ?_, ?_⟩
  · rw [splitAndRejoin_eq] at hdot ⊢
    rw [hsplit] at hdot
    by_cases hempty : reducedComponents path = []
    · rw [hempty] at hdot ⊢
      cases hr : rooted path with
      | false => rfl
      | true => simp [hr] at hdot
    · rw [if_neg hempty, List.mem_append] at hdot
      rcases hdot with hdot | hdot
      · cases hr : rooted path <;> simp [hr] at hdot
      · exact absurd rfl (hmem _ hdot).2
  · rw [splitAndRejoin_eq, hsplit] at hnil
    by_cases hempty : reducedComponents path = []
    · cases hr : rooted path <;> simp [hempty, hr] at hnil
    · rw [if_neg hempty] at hnil
      cases hr : rooted path with
      | false =>
        rw [hr] at hnil
        exact (hmem _ (List.mem_of_mem_tail (List.mem_of_mem_dropLast hnil))).1 rfl
      | true =>
        rw [hr] at hnil
        exact (hmem _ (List.mem_of_mem_dropLast hnil)).1 rfl
  · rw [hcomps, hroot]
    exact reducedComponents_reduced path

/-- Normalisation works off the components from the left. -/
theorem normalizePath_correct (path : Str) :
    NormalForm (normalizePath path) ∧ pathComponents (normalizePath path) = reducedComponents path ∧
    rooted (normalizePath path) = rooted path ∧
    (path ≠ [] → rooted path = false → reducedComponents path = [] → normalizePath path = ['.']) ∧
    normalizePath (normalizePath path) = normalizePath path := by
  cases h : needsNormalize true path with
  | true =>
    obtain ⟨hcomps, hroot⟩ := splitAndRejoin_components path
    rw [normalizePath_slow h]
    refine ⟨splitAndRejoin_normal path, hcomps, hroot, fun _ hrel hempty => ?_, ?_⟩
    · rw [splitAndRejoin_eq, hrel, hempty]
      rfl
    · cases hagain : needsNormalize true (splitAndRejoin path) with
      | true => rw [normalizePath_slow hagain, splitAndRejoin_idem]
      | false => rw [normalizePath_fast hagain]
  | false =>
    have hplain := (needsNormalize_eq_false_iff path).mp h
    have hup : dotDot ∉ pathComponents path := fun hmem => (hplain.dots dotDot (List.mem_of_mem_filter hmem)).2 rfl
    have hreduced : Cancel.Reduced dotDot (rooted path) (pathComponents path) := Cancel.reduced_of_notMem hup
    rw [normalizePath_fast h, normalizePath_fast h]
    refine ⟨⟨fun hdot => absurd rfl (hplain.dots _ hdot).1, hplain.inner, hreduced⟩,
      (Cancel.reduce_of_reduced hreduced).symm, rfl, fun hne hrel hempty => ?_, rfl⟩
    -- such a path would be `.` or `./`, which need work
    have hpath := plain_path hne h
    rw [splitAndRejoin_eq, hrel, hempty] at hpath
    split at hpath
    all_goals
      rw [hpath] at h
      cases h

/-! ### The fast path against the slow one -/

/-- Two spellings of one file get one name. -/
private theorem normalizePath_canonical {p q : Str} (hp : p ≠ []) (hq : q ≠ []) (hroot : rooted p = rooted q)
    (hcomps : reducedComponents p = reducedComponents q) :
    normalizePath p = normalizePath q ↔ keptSlash p = keptSlash q := by
  rw [normalizePath_eq hp, normalizePath_eq hq, splitAndRejoin_eq p, splitAndRejoin_eq q, hroot, hcomps,
    List.append_cancel_left_eq]
  cases keptSlash p <;> cases keptSlash q <;> simp

/-- The path has work for the slow path, or no last slash to lose. -/
def SlashSettled (path : Str) : Prop := ¬Plain (path.splitOn '/') ∨ path.getLast? ≠ some '/' ∨ path = ['/']

private theorem keptSlash_eq_false_iff (path : Str) : keptSlash path = false ↔ SlashSettled path := by
  rw [SlashSettled, ← needsNormalize_eq_false_iff, Bool.not_eq_false, keptSlash]
  cases needsNormalize true path with
  | true => simp
  | false => simp [imp_iff_not_or]

/-- Normalising is the slow path, and so tells no two spellings of one file apart. -/
theorem normalizePath_slow_iff {p : Str} (hp : p ≠ []) :
    (normalizePath p = splitAndRejoin p ∧
      ∀ q, q ≠ [] → SlashSettled q → rooted p = rooted q → reducedComponents p = reducedComponents q →
        normalizePath p = normalizePath q) ↔ SlashSettled p := by
  rw [← keptSlash_eq_false_iff]
  constructor
  · rintro ⟨hslow, -⟩
    rw [normalizePath_eq hp] at hslow
    cases hkept : keptSlash p with
    | false => rfl
    | true => simp [hkept] at hslow
  · intro hkept
    refine ⟨by simp [normalizePath_eq hp, hkept], fun q hq hsettled hroot hcomps => ?_⟩
    rw [normalizePath_canonical hp hq hroot hcomps, hkept, (keptSlash_eq_false_iff q).mpr hsettled]

/-- `./src` goes the slow way. -/
theorem normalizePath_slow_dotSrc :
    normalizePath "./src".toList = splitAndRejoin "./src".toList ∧
      ∀ q, q ≠ [] → SlashSettled q → rooted "./src".toList = rooted q →
        reducedComponents "./src".toList = reducedComponents q → normalizePath "./src".toList = normalizePath q :=
  (normalizePath_slow_iff (by decide)).mpr (.inr (.inl (by decide)))

/-- `src/` keeps its slash, so it is another name than `src`. -/
theorem trailing_slash_kept :
    "src/".toList ≠ [] ∧ normalizePath "src/".toList ≠ splitAndRejoin "src/".toList ∧
      rooted "src/".toList = rooted "src".toList ∧ reducedComponents "src/".toList = reducedComponents "src".toList ∧
      normalizePath "src/".toList ≠ normalizePath "src".toList := by
  decide

end Bdtrace
