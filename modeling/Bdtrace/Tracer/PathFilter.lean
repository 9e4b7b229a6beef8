import Bdtrace.Tracer.PathNames

/-! Which accesses are dropped: the filter on the spelling of a path against the filter on the path that it
resolves to. -/
namespace Bdtrace

/-- The path is under `/tree/`. -/
def UnderTree (tree path : Str) : Prop := '/' :: (tree ++ ['/']) <+: path

instance (tree path : Str) : Decidable (UnderTree tree path) := inferInstanceAs (Decidable (_ <+: _))

/-- The trees that the filter drops. -/
def filteredTrees : List Str := ["dev".toList, "proc".toList]

/-- What the tracer means to drop: the root directory, and what is under one of three trees. -/
def HiddenPath (path : Str) : Prop :=
  path = ['/'] ∨ UnderTree "dev".toList path ∨ UnderTree "proc".toList path ∨ UnderTree "sys".toList path

/-- An absolute path that is dropped. -/
def FilteredPath (path : Str) : Prop := path = ['/'] ∨ ∃ tree ∈ filteredTrees, UnderTree tree path

/-- The same of the components of an absolute path. -/
def FilteredComponents (comps : List Str) : Prop :=
  comps = [] ∨ ∃ tree ∈ filteredTrees, ∃ name rest, comps = tree :: name :: rest

private theorem hidden_iff_filtered (path : Str) :
    HiddenPath path ↔ FilteredPath path ∨ UnderTree "sys".toList path := by
  simp [HiddenPath, FilteredPath, filteredTrees, or_assoc]

/-- The comparison with `/sys/` never succeeds. -/
private theorem shouldFilterPath_iff (path : Str) :
    shouldFilterPath path = true ↔ path.length < 2 ∨ ∃ tree ∈ filteredTrees, UnderTree tree path := by
  have hsys : path.take 4 ≠ "/sys/".toList := fun h => by
    have hlen := congrArg List.length h
    rw [List.length_take] at hlen
    exact absurd hlen (ne_of_lt (lt_of_le_of_lt (min_le_left _ _) (by decide)))
  have hdev : path.take 5 = "/dev/".toList ↔ UnderTree "dev".toList path :=
    eq_comm.trans List.prefix_iff_eq_take.symm
  have hproc : path.take 6 = "/proc/".toList ↔ UnderTree "proc".toList path :=
    eq_comm.trans List.prefix_iff_eq_take.symm
  rw [shouldFilterPath, Bool.or_eq_true, Bool.or_eq_true, Bool.or_eq_true, decide_eq_true_eq, beq_iff_eq, beq_iff_eq,
    beq_iff_eq, or_iff_left hsys, hdev, hproc, or_assoc]
  simp [filteredTrees]

private theorem rooted_iff (path : Str) : rooted path = true ↔ ∃ text, path = '/' :: text := by
  cases path with
  | nil => simp [rooted]
  | cons c path => simp [rooted]

private theorem rooted_of_under {tree path : Str} (h : UnderTree tree path) : rooted path = true := by
  obtain ⟨text, rfl⟩ := h
  rfl

/-- A path under `/sys/` is kept. -/
private theorem not_filtered_of_sys {path : Str} (h : UnderTree "sys".toList path) : ¬FilteredPath path := by
  obtain ⟨text, rfl⟩ := h
  simp [FilteredPath, filteredTrees, UnderTree]

private theorem shouldFilterPath_rooted {path : Str} (h : rooted path = true) :
    shouldFilterPath path = true ↔ FilteredPath path := by
  obtain ⟨text, rfl⟩ := (rooted_iff path).mp h
  rw [shouldFilterPath_iff, FilteredPath]
  have hlength : ('/' :: text).length < 2 ↔ '/' :: text = ['/'] := by
    cases text <;> simp
  rw [hlength]

private theorem under_rejoined {tree : Str} (htree : '/' ∉ tree) {comps : List Str}
    (h : ∀ comp ∈ comps, IsComponent comp) :
    UnderTree tree ('/' :: ['/'].intercalate comps) ↔ ∃ name rest, comps = tree :: name :: rest := by
  rw [UnderTree, List.cons_prefix_cons, and_iff_right rfl]
  constructor
  · rintro ⟨text, htext⟩
    have hne : comps ≠ [] := by
      rintro rfl
      simp at htext
    have hsplit : (['/'].intercalate comps).splitOn '/' = comps :=
      List.splitOn_intercalate '/' (fun comp hcomp => (h comp hcomp).2.2) hne
    rw [← htext, List.append_assoc, List.singleton_append, List.splitOn_append_cons_self_of_not_mem htree] at hsplit
    cases hrest : text.splitOn '/' with
    | nil => exact absurd hrest (List.splitOn_ne_nil _ _)
    | cons name rest => exact ⟨name, rest, by rw [← hsplit, hrest]⟩
  · rintro ⟨name, rest, rfl⟩
    rw [List.intercalate_cons_cons]
    exact List.prefix_append _ _

/-- The filter on a normalised absolute path goes by its components. -/
private theorem shouldFilterPath_normalizePath {path : Str} (hroot : rooted path = true)
    (hkept : keptSlash path = false) :
    shouldFilterPath (normalizePath path) = true ↔ FilteredComponents (reducedComponents path) := by
  have hne : path ≠ [] := by
    rintro rfl
    cases hroot
  have hcomps : ∀ comp ∈ reducedComponents path, IsComponent comp := fun _ => isComponent_of_reduced
  have hpath : normalizePath path = '/' :: ['/'].intercalate (reducedComponents path) := by
    rw [normalizePath_eq hne, hkept, splitAndRejoin_eq, hroot]
    simp [joinComponents]
  rw [hpath, shouldFilterPath_rooted rfl, FilteredPath, FilteredComponents]
  refine or_congr ?_ (exists_congr fun tree => and_congr_right fun htree => under_rejoined ?_ hcomps)
  · constructor
    · intro hone
      by_contra hsome
      obtain ⟨c, text, htext, -⟩ := intercalate_head hcomps hsome
      simp [htext] at hone
    · intro hnone
      rw [hnone]
      rfl
  · exact (by decide : ∀ tree ∈ filteredTrees, '/' ∉ tree) tree htree

/-! ### The two filters -/

/-- The directory that a relative path is taken from. -/
def lookupCwd (view : TraceeView) (ps : ProcessState) : Str := if ps.cachedCwd = [] then view.cwd else ps.cachedCwd

/-- A path as it is looked up from a directory. -/
def fromCwd (cwd path : Str) : Str := if rooted path then path else cwd ++ '/' :: path

/-- A relative path stays as it is when no directory is known. -/
private theorem resolvePathCached_snd (view : TraceeView) (ps : ProcessState) (path : Str) :
    (resolvePathCached view ps path).2 =
      if path = [] ∨ (rooted path = false ∧ lookupCwd view ps = []) then path
      else normalizePath (fromCwd (lookupCwd view ps) path) := by
  by_cases hpath : path = []
  · rw [hpath]
    rfl
  · cases hroot : rooted path with
    | true =>
      obtain ⟨text, rfl⟩ := (rooted_iff path).mp hroot
      rfl
    | false =>
      have hslash : ∀ text, path ≠ '/' :: text := fun text htext => by
        rw [htext] at hroot
        cases hroot
      rw [resolvePathCached, fromCwd, hroot]
      · by_cases hcached : ps.cachedCwd = []
        · simp [lookupCwd, hcached, hpath]
        · simp [lookupCwd, hcached, hpath]
      · exact hpath
      · exact hslash

theorem resolvePathCached_eq {view : TraceeView} {ps : ProcessState} {path : Str} (hpath : path ≠ [])
    (hcwd : lookupCwd view ps ≠ []) :
    (resolvePathCached view ps path).2 = normalizePath (fromCwd (lookupCwd view ps) path) := by
  rw [resolvePathCached_snd, if_neg]
  rintro (h | h)
  · exact hpath h
  · exact hcwd h.2

/-- The path that is recorded depends only on the directory. -/
theorem recordedPath_lookup {view : TraceeView} {ps ps' : ProcessState} (h : lookupCwd view ps = lookupCwd view ps')
    (addr : BitVec 64) : (recordedPath view ps addr).2 = (recordedPath view ps' addr).2 := by
  simp only [recordedPath]
  split
  · rfl
  · simp only [resolvePathCached_snd, h]

/-- The filter on the spelling drops only what the filter on the resolved path drops: a name of one character is
the root or dropped, and a path that starts like a dropped one stays under such a tree. -/
def SpellingTold (cwd path : Str) : Prop :=
  (path.length = 1 → path = ['/'] ∨ FilteredComponents (reducedComponents (fromCwd cwd path))) ∧
  ((∃ tree ∈ filteredTrees, UnderTree tree path) → Plain (path.splitOn '/') ∨
    FilteredComponents (reducedComponents path))

private theorem spelling_told_iff {cwd path : Str} (hcwd : rooted cwd = true) (hpath : path ≠ []) :
    (shouldFilterPath path = true → shouldFilterPath (normalizePath (fromCwd cwd path)) = true) ↔
      SpellingTold cwd path := by
  rw [shouldFilterPath_iff path, SpellingTold, or_imp]
  have hlength : path.length < 2 ↔ path.length = 1 := by
    have := List.length_pos_of_ne_nil hpath
    omega
  rw [hlength]
  cases hroot : rooted path with
  | true =>
    rw [fromCwd, hroot, if_pos rfl]
    refine and_congr ?_ (imp_congr_right fun htree => ?_)
    · -- the root itself
      refine iff_of_true (fun hone => ?_) (fun hone => .inl ?_)
      all_goals
        obtain ⟨text, rfl⟩ := (rooted_iff path).mp hroot
        obtain rfl : text = [] := by simpa using hone
        rfl
    · cases hneeds : needsNormalize true path with
      | true =>
        have hplain : ¬Plain (path.splitOn '/') := by
          rw [← needsNormalize_eq_false_iff, hneeds]
          simp
        rw [or_iff_right hplain]
        exact shouldFilterPath_normalizePath hroot (by simp [keptSlash, hneeds])
      | false =>
        rw [normalizePath_fast hneeds]
        exact iff_of_true ((shouldFilterPath_iff path).mpr (.inr htree))
          (.inl ((needsNormalize_eq_false_iff path).mp hneeds))
  | false =>
    refine and_congr (imp_congr_right fun hone => ?_) ?_
    · obtain ⟨c, rfl⟩ := List.length_eq_one_iff.mp hone
      have hc : c ≠ '/' := by simpa [rooted] using hroot
      have hfull : rooted (fromCwd cwd [c]) = true := by
        obtain ⟨text, rfl⟩ := (rooted_iff cwd).mp hcwd
        rw [fromCwd, hroot]
        rfl
      have hlast : (fromCwd cwd [c]).getLast? = some c := by
        simp [fromCwd, hroot]
      rw [shouldFilterPath_normalizePath hfull (by simp [keptSlash, hlast, hc]), or_iff_right (by simpa using hc)]
    · refine iff_of_true ?_ ?_
      all_goals
        rintro ⟨tree, -, htree⟩
        cases hroot.symm.trans (rooted_of_under htree)

/-- Both spellings are dropped, or neither is, and they are dropped exactly if the path they resolve to is hidden. -/
structure FilteredByResolved (view : TraceeView) (pid : Int) (ps : ProcessState) (a b : BitVec 64) (resolved : Str) :
    Prop where
  access : ∀ mode fd, ((recordAccess view pid ps a mode fd).2 = [] ↔ (recordAccess view pid ps b mode fd).2 = []) ∧
    ((recordAccess view pid ps a mode fd).2 = [] ↔ HiddenPath resolved)
  failed : ∀ mode e, ((recordFailedAccess view pid ps a mode e).2 = [] ↔
    (recordFailedAccess view pid ps b mode e).2 = []) ∧
    ((recordFailedAccess view pid ps a mode e).2 = [] ↔ HiddenPath resolved)

section
variable {view : TraceeView} {pid : Int} {ps : ProcessState} {a b : BitVec 64} {p q : Str}

private theorem recordAccess_dropped (mode : FileAccessMode) (fd : Int) :
    (recordAccess view pid ps a mode fd).2 = [] ↔ (recordedPath view ps a).2 = none := by
  simp [recordAccess]

private theorem recordFailedAccess_dropped (mode : FileAccessMode) (e : Int) :
    (recordFailedAccess view pid ps a mode e).2 = [] ↔ (recordedPath view ps a).2 = none := by
  simp [recordFailedAccess]

/-- The mode, the descriptor and the errno do not matter. -/
private theorem filteredByResolved_iff {resolved : Str} : FilteredByResolved view pid ps a b resolved ↔
    ((recordedPath view ps a).2 = none ↔ (recordedPath view ps b).2 = none) ∧
      ((recordedPath view ps a).2 = none ↔ HiddenPath resolved) := by
  constructor
  · intro h
    have haccess := h.access .read 0
    rwa [recordAccess_dropped, recordAccess_dropped] at haccess
  · intro h
    refine ⟨fun mode fd => ?_, fun mode e => ?_⟩
    · rwa [recordAccess_dropped, recordAccess_dropped]
    · rwa [recordFailedAccess_dropped, recordFailedAccess_dropped]

private theorem recordedPath_none (hp : readString view a = p) (hne : p ≠ []) : (recordedPath view ps a).2 = none ↔
    shouldFilterPath p = true ∨ shouldFilterPath (resolvePathCached view ps p).2 = true := by
  rw [recordedPath, hp]
  by_cases h : shouldFilterPath p = true
  · simp [h]
  · simp [h, hne]

/-- When the filter goes by the resolved path: where it is under `/sys/`, which the filter on it misses, if both
spellings are dropped; elsewhere for those spellings that tell it. -/
theorem filtered_iff (hcwd : rooted (lookupCwd view ps) = true) (hp : readString view a = p)
    (hq : readString view b = q)
    (hpne : p ≠ []) (hqne : q ≠ []) (hsame : (resolvePathCached view ps p).2 = (resolvePathCached view ps q).2) :
    FilteredByResolved view pid ps a b (resolvePathCached view ps p).2 ↔
      if UnderTree "sys".toList (resolvePathCached view ps p).2 then
        shouldFilterPath p = true ∧ shouldFilterPath q = true
      else SpellingTold (lookupCwd view ps) p ∧ SpellingTold (lookupCwd view ps) q := by
  have hcwdne : lookupCwd view ps ≠ [] := fun hnil => by
    rw [hnil] at hcwd
    cases hcwd
  have hresolved : ∀ {path}, path ≠ [] → rooted (resolvePathCached view ps path).2 = true := fun {path} hpath => by
    rw [resolvePathCached_eq hpath hcwdne, (normalizePath_correct _).2.2.1, fromCwd]
    split
    · assumption
    · obtain ⟨text, htext⟩ := (rooted_iff _).mp hcwd
      rw [htext]
      rfl
  obtain ⟨r, hr⟩ : ∃ r, r = (resolvePathCached view ps p).2 := ⟨_, rfl⟩
  have hpdrop : (recordedPath view ps a).2 = none ↔ shouldFilterPath p = true ∨ FilteredPath r := by
    rw [recordedPath_none hp hpne, shouldFilterPath_rooted (hresolved hpne), hr]
  have hqdrop : (recordedPath view ps b).2 = none ↔ shouldFilterPath q = true ∨ FilteredPath r := by
    rw [recordedPath_none hq hqne, shouldFilterPath_rooted (hresolved hqne), hr, hsame]
  have hpkept := spelling_told_iff hcwd hpne
  have hqkept := spelling_told_iff hcwd hqne
  rw [← resolvePathCached_eq hpne hcwdne, shouldFilterPath_rooted (hresolved hpne), ← hr] at hpkept
  rw [← resolvePathCached_eq hqne hcwdne, shouldFilterPath_rooted (hresolved hqne), ← hsame, ← hr] at hqkept
  rw [← hpkept, ← hqkept, ← hr, filteredByResolved_iff, hpdrop, hqdrop, hidden_iff_filtered]
  split
  · rename_i hsys
    have hkept := not_filtered_of_sys hsys
    rw [or_iff_left hkept, or_iff_left hkept]
    exact ⟨fun h => ⟨h.2.mpr (.inr hsys), h.1.mp (h.2.mpr (.inr hsys))⟩,
      fun h => ⟨iff_of_true h.1 h.2, iff_of_true h.1 (.inr hsys)⟩⟩
  · rename_i hsys
    rw [or_iff_left hsys]
    constructor
    · rintro ⟨hboth, hp⟩
      exact ⟨fun h => hp.mp (.inl h), fun h => hp.mp (hboth.mpr (.inl h))⟩
    · rintro ⟨hp, hq⟩
      exact ⟨(or_iff_right_of_imp hp).trans (or_iff_right_of_imp hq).symm, or_iff_right_of_imp hp⟩

end

/-- A task in `/work` with one path at address 1 and another elsewhere. -/
def twoSpellings (p q : Str) : TraceeView := { string := fun addr => if addr = 1 then p else q, cwd := "/work".toList }

/-- `../work/main.c` and `/work//main.c`. -/
theorem filtered_mainC :
    FilteredByResolved (twoSpellings "../work/main.c".toList "/work//main.c".toList) 20 {} 1 2 "/work/main.c".toList :=
  (filtered_iff (by decide) rfl rfl (by decide) (by decide) (by decide)).mpr
    ⟨(spelling_told_iff (by decide) (by decide)).mp fun h => absurd h (by decide),
      (spelling_told_iff (by decide) (by decide)).mp fun h => absurd h (by decide)⟩

/-- `a` is dropped for its length and `./a` is recorded; `/dev/../etc/passwd` is dropped for its first letters and
`/etc/passwd` is recorded; `/sys/x` is recorded. -/
theorem spelling_decides :
    (resolvePathCached (twoSpellings "a".toList "./a".toList) {} "a".toList).2 = "/work/a".toList ∧
    (resolvePathCached (twoSpellings "a".toList "./a".toList) {} "./a".toList).2 = "/work/a".toList ∧
    ¬FilteredByResolved (twoSpellings "a".toList "./a".toList) 20 {} 1 2 "/work/a".toList ∧
    (resolvePathCached (twoSpellings "/dev/../etc/passwd".toList "/etc/passwd".toList) {}
      "/dev/../etc/passwd".toList).2 = "/etc/passwd".toList ∧
    ¬FilteredByResolved (twoSpellings "/dev/../etc/passwd".toList "/etc/passwd".toList) 20 {} 1 2 "/etc/passwd".toList ∧
    (resolvePathCached (twoSpellings "/sys/x".toList "/sys/x".toList) {} "/sys/x".toList).2 = "/sys/x".toList ∧
    ¬FilteredByResolved (twoSpellings "/sys/x".toList "/sys/x".toList) 20 {} 1 2 "/sys/x".toList := by
  refine ⟨by decide, by decide, fun h => ?_, by decide, fun h => ?_, by decide, fun h => ?_⟩
  · exact absurd ((h.access .read 3).1.mp (by decide)) (by decide)
  · exact absurd ((h.access .read 3).1.mp (by decide)) (by decide)
  · exact absurd ((h.access .read 3).2.mpr (by simp [HiddenPath, UnderTree])) (by decide)

end Bdtrace
