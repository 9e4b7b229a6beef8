import Bdtrace.Tracer.ProcessTimes
import Bdtrace.Web.JsonRoundTrip
import Mathlib.Data.List.Infix

/-! Which handler of the web server answers a request path. -/
namespace Bdtrace
open Json (digitChars)

/-- `std::atoi`, which is `strtol` cut down to an `int`. -/
def atoi (s : Str) : Int := int32 (strtol10 s).1

/-- What a path below `/api/processes/<pid>` names. -/
inductive Resource where
  | filedirs | files | children | io
  deriving DecidableEq, Repr

def Resource.name : Resource → Str
  | filedirs => "filedirs".toList
  | files => "files".toList
  | children => "children".toList
  | io => "io".toList

inductive Endpoint where
  | summary | processes | files | filesByPath | filesByPrefix | slowest | timeline | parallelism | criticalPath
  | hotspots | failures | diagnostics | impact | races | rebuild | rdeps
  | process (resource : Resource) (pid : Int)
  /-- `send_error(c, 400, "Bad PID")`. -/
  | badPid
  | static
  deriving DecidableEq, Repr

def processesDir : Str := "/api/processes/".toList

/-- `extract_pid_from_uri`. -/
def extractPidFromUri (uri pfx suffix : Str) : Int :=
  if ¬ pfx <+: uri then -1
  else
    let pidStr := (uri.drop pfx.length).takeWhile (· ≠ '/')
    if suffix ≠ [] ∧ uri.length < pfx.length + pidStr.length + suffix.length then -1
    else atoi pidStr

/-- `pid > 0` and the handler, or the error. -/
def forProcess (uri : Str) (resource : Resource) : Endpoint :=
  let pid := extractPidFromUri uri processesDir ('/' :: resource.name)
  if pid > 0 then .process resource pid else .badPid

/-- `ev_handler`. -/
def route (uri : Str) : Endpoint :=
  if uri = "/api/summary".toList then .summary
  else if uri = "/api/processes".toList then .processes
  else if processesDir <+: uri ∧ "/filedirs".toList <:+: uri then forProcess uri .filedirs
  else if processesDir <+: uri ∧ "/files".toList <:+: uri then forProcess uri .files
  else if processesDir <+: uri ∧ "/children".toList <:+: uri then forProcess uri .children
  else if uri = "/api/files".toList then .files
  else if uri = "/api/files/by-path".toList then .filesByPath
  else if uri = "/api/files/by-prefix".toList then .filesByPrefix
  else if uri = "/api/slowest".toList then .slowest
  else if uri = "/api/timeline".toList then .timeline
  else if uri = "/api/parallelism".toList then .parallelism
  else if uri = "/api/critical-path".toList then .criticalPath
  else if uri = "/api/hotspots".toList then .hotspots
  else if uri = "/api/failures".toList then .failures
  else if uri = "/api/diagnostics".toList then .diagnostics
  else if processesDir <+: uri ∧ "/io".toList <:+: uri then forProcess uri .io
  else if uri = "/api/impact".toList then .impact
  else if uri = "/api/races".toList then .races
  else if uri = "/api/rebuild".toList then .rebuild
  else if uri = "/api/rdeps".toList then .rdeps
  else .static

/-! ### Decimal numbers -/

private theorem isDigit_eq (c : Char) : Json.isDigit c = c.isDigit := by
  rw [Json.isDigit, Char.isDigit, Bool.decide_and]
  rfl

/-- The digits are read as digits, and their value is the number. -/
theorem digitChars_facts (n : Nat) :
    digitChars n ≠ [] ∧ (∀ c ∈ digitChars n, c.isDigit = true) ∧ digitsValue (digitChars n) = n := by
  have hparse := Json.parseNat_digitChars n (.inl rfl)
  rw [List.append_nil, Json.parseNat] at hparse
  simp only [Option.ite_none_left_eq_some, Option.some.injEq, Prod.mk.injEq, not_or] at hparse
  obtain ⟨⟨hne, -⟩, hvalue, hrest⟩ := hparse
  have hall : (digitChars n).takeWhile Json.isDigit = digitChars n := by
    have hsplit := List.takeWhile_append_dropWhile (p := Json.isDigit) (l := digitChars n)
    rwa [hrest, List.append_nil] at hsplit
  rw [hall] at hne hvalue
  refine ⟨hne, fun c hc => ?_, hvalue⟩
  rw [← isDigit_eq]
  exact List.mem_takeWhile_imp (hall.symm ▸ hc)

/-- The text that `%d` and `%lld` print. -/
def Numeral.ofInt (v : Int) : Numeral where
  sign := if v < 0 then some true else none
  digits := digitChars v.natAbs
  nonempty := (digitChars_facts v.natAbs).1
  decimal := (digitChars_facts v.natAbs).2.1

private theorem text_ofInt (v : Int) : (Numeral.ofInt v).text = decimal v := by
  rw [Json.decimal_eq, Numeral.text, Numeral.ofInt]
  by_cases hv : v < 0 <;> simp [hv]

private theorem value_ofInt (v : Int) : (Numeral.ofInt v).value = v := by
  rw [Numeral.value, Numeral.ofInt]
  by_cases hv : v < 0
  · simp only [if_pos hv, (digitChars_facts v.natAbs).2.2, if_true]
    omega
  · simp only [if_neg hv, (digitChars_facts v.natAbs).2.2]
    rw [if_neg (Option.some_ne_none true).symm]
    omega

/-- A printed number is read back, as far as an `int` holds it. -/
private theorem atoi_decimal {v : Int} (h : -2 ^ 63 ≤ v) (h' : v < 2 ^ 63) {rest : Str}
    (hrest : ∀ c ∈ rest.head?, c.isDigit = false) : atoi (decimal v ++ rest) = int32 v := by
  rw [atoi, ← text_ofInt, strtol10_numeral _ hrest, value_ofInt, clampLong_of_range h h']

theorem decimal_bytes (v : Int) : ∀ c ∈ decimal v, c.toNat < 256 := by
  intro c hc
  rw [Json.decimal_eq, List.mem_append] at hc
  rcases hc with hc | hc
  · split at hc
    · rw [List.mem_singleton.mp hc]
      decide
    · cases hc
  · have hdigit := (digitChars_facts v.natAbs).2.1 c hc
    simp only [Char.isDigit, Bool.and_eq_true, decide_eq_true_eq, UInt32.le_iff_toNat_le] at hdigit
    have hnine : '9'.val.toNat = 57 := rfl
    rw [Char.toNat]
    omega

/-- A printed `int` is read back. -/
theorem atoi_decimal_int {v : Int} (h : -2 ^ 31 ≤ v) (h' : v < 2 ^ 31) : atoi (decimal v) = v := by
  have hread : atoi (decimal v ++ []) = int32 v := atoi_decimal (by omega) (by omega) nofun
  rwa [List.append_nil, int32_of_range h h'] at hread

theorem decimal_ne_nil (v : Int) : decimal v ≠ [] := by
  obtain ⟨c, s, hcs, -⟩ := Json.decimal_head v
  rw [hcs]
  exact List.cons_ne_nil c s

/-! ### Requests about a process -/

/-- The path that the browser asks for. -/
def processUri (v : Int) (resource : Resource) : Str := processesDir ++ (decimal v ++ '/' :: resource.name)

private theorem slash_notMem_decimal (v : Int) : '/' ∉ decimal v := by
  rw [Json.decimal_eq]
  intro h
  rcases List.mem_append.mp h with h | h
  · split at h
    · exact absurd (List.mem_singleton.mp h) (by decide)
    · cases h
  · exact absurd ((digitChars_facts _).2.1 '/' h) (by decide)

/-- Text that begins with a character is found in front, or behind what does not hold that character. -/
private theorem infix_append_iff {c : Char} {w before s : Str} (h : c ∉ before) :
    c :: w <:+: before ++ c :: s ↔ w <+: s ∨ c :: w <:+: s := by
  induction before with
  | nil => rw [List.nil_append, List.infix_cons_iff, List.cons_prefix_cons, and_iff_right rfl]
  | cons d before ih =>
    rw [List.mem_cons, not_or] at h
    rw [List.cons_append, List.infix_cons_iff, List.cons_prefix_cons, ih h.2]
    exact or_iff_right fun hd => h.1 hd.1

private theorem not_infix_of_notMem {c : Char} {w s : Str} (h : c ∉ s) : ¬ c :: w <:+: s := fun hin =>
  h (hin.subset List.mem_cons_self)

/-- The name of a resource stands at the end of the path, and nowhere before. -/
private theorem infix_processUri (v : Int) (asked : Resource) (resource : Resource) :
    '/' :: resource.name <:+: processUri v asked ↔ resource.name <+: asked.name := by
  have huri : processUri v asked = [] ++ '/' :: ("api".toList ++ '/' :: ("processes".toList ++ '/' ::
      (decimal v ++ '/' :: asked.name))) := rfl
  have hend : ¬ '/' :: resource.name <:+: asked.name := not_infix_of_notMem (by cases asked <;> decide)
  have hfirst : ∀ {c : Char} {s : Str}, c ∈ ['a', 'p', '-'] ∨ c.isDigit = true → ¬ resource.name <+: c :: s := by
    intro c s hc hpre
    have hhead : resource.name.head? = some c := by
      obtain ⟨u, hu⟩ := hpre
      cases hname : resource.name with
      | nil => cases resource <;> cases hname
      | cons d w =>
        rw [hname, List.cons_append, List.cons.injEq] at hu
        rw [List.head?_cons, hu.1]
    cases resource <;> obtain rfl := Option.some.inj hhead <;> exact absurd hc (by decide)
  obtain ⟨c, s, hcs, hc⟩ := Json.decimal_head v
  have hdecimal : ¬ resource.name <+: decimal v ++ '/' :: asked.name := by
    rw [hcs, List.cons_append]
    exact hfirst (hc.imp (fun h => by simp [h]) fun h => (isDigit_eq c).symm.trans h)
  have hapi : ∀ s : Str, ¬ resource.name <+: "api".toList ++ s := fun s => hfirst (.inl (by decide))
  have hprocesses : ∀ s : Str, ¬ resource.name <+: "processes".toList ++ s := fun s => hfirst (.inl (by decide))
  rw [huri, infix_append_iff List.not_mem_nil, infix_append_iff (by decide), infix_append_iff (by decide),
    infix_append_iff (slash_notMem_decimal v), or_iff_right (hapi _), or_iff_right (hprocesses _),
      or_iff_right hdecimal,
    or_iff_left hend]

private theorem extractPid_processUri {v : Int} (h : -2 ^ 63 ≤ v) (h' : v < 2 ^ 63) (resource : Resource) :
    extractPidFromUri (processUri v resource) processesDir ('/' :: resource.name) = int32 v := by
  have hpre : processesDir <+: processUri v resource := List.prefix_append _ _
  have hplain : ∀ c ∈ decimal v, decide (c ≠ '/') = true := by
    intro c hc
    rw [decide_eq_true_eq]
    rintro rfl
    exact slash_notMem_decimal v hc
  have hpid : ((processUri v resource).drop processesDir.length).takeWhile (· ≠ '/') = decimal v := by
    rw [processUri, List.drop_left, List.takeWhile_append_of_pos hplain, List.takeWhile_cons_of_neg (by simp),
      List.append_nil]
  have hlen : ¬ (processUri v resource).length < processesDir.length + (decimal v).length + ('/' ::
      resource.name).length := by
    rw [processUri, List.length_append, List.length_append]
    omega
  have hread : atoi (decimal v ++ []) = int32 v := atoi_decimal h h' nofun
  rw [List.append_nil] at hread
  rw [extractPidFromUri, if_neg (not_not.mpr hpre)]
  simp only [hpid]
  rw [if_neg fun hshort => hlen hshort.2, hread]

/-- The paths that name no process. -/
def apiRoutes : List (Str × Endpoint) :=
  [("/api/summary".toList, .summary), ("/api/processes".toList, .processes), ("/api/files".toList, .files),
    ("/api/files/by-path".toList, .filesByPath), ("/api/files/by-prefix".toList, .filesByPrefix),
    ("/api/slowest".toList, .slowest), ("/api/timeline".toList, .timeline), ("/api/parallelism".toList, .parallelism),
    ("/api/critical-path".toList, .criticalPath), ("/api/hotspots".toList, .hotspots),
    ("/api/failures".toList, .failures), ("/api/diagnostics".toList, .diagnostics), ("/api/impact".toList, .impact),
    ("/api/races".toList, .races), ("/api/rebuild".toList, .rebuild), ("/api/rdeps".toList, .rdeps)]

/-- Below a process the first of the resources counts that the path holds. -/
private theorem route_processes {uri : Str} (hpre : processesDir <+: uri) : route uri =
    (([Resource.filedirs, .files, .children, .io].find? fun r => '/' :: r.name <:+: uri).map (forProcess uri)).getD
      .static := by
  have hne : ∀ e ∈ apiRoutes, uri ≠ e.1 := by
    rintro e he rfl
    exact absurd hpre ((by decide : ∀ e ∈ apiRoutes, ¬ processesDir <+: e.1) e he)
  have hno : ∀ e ∈ apiRoutes, (uri = e.1) = False := fun e he => eq_false (hne e he)
  simp only [apiRoutes, List.forall_mem_cons] at hno
  simp only [route, hno, hpre, true_and, if_false]
  change (if '/' :: Resource.filedirs.name <:+: uri then _ else if '/' :: Resource.files.name <:+: uri then _
    else if '/' :: Resource.children.name <:+: uri then _ else if '/' :: Resource.io.name <:+: uri then _ else _) = _
  by_cases hdirs : '/' :: Resource.filedirs.name <:+: uri
  · simp [hdirs]
  · by_cases hfiles : '/' :: Resource.files.name <:+: uri
    · simp [hdirs, hfiles]
    · by_cases hchildren : '/' :: Resource.children.name <:+: uri
      · simp [hdirs, hfiles, hchildren]
      · by_cases hio : '/' :: Resource.io.name <:+: uri
        · simp [hdirs, hfiles, hchildren, hio]
        · simp [hdirs, hfiles, hchildren, hio]

private theorem route_apiRoutes : ∀ e ∈ apiRoutes, route e.1 = e.2 := by decide

private theorem route_of_notMem {uri : Str} (hnot : uri ∉ apiRoutes.map (·.1)) (hpre : ¬ processesDir <+: uri) :
    route uri = .static := by
  have hno : ∀ e ∈ apiRoutes, (uri = e.1) = False := fun e he => eq_false fun heq => hnot (heq ▸ List.mem_map_of_mem he)
  simp only [apiRoutes, List.forall_mem_cons] at hno
  simp only [route, hno, hpre, false_and, if_false]

/-- What the server answers to a path: below a process the handler of the resource, for the process whose number an
`int` makes of the one in the path, or an error if that is not positive; the resource is the first of the four, in this
order, that the path holds anywhere, and without one it is the static files; else what stands in the table. -/
structure Routes : Prop where
  below : ∀ uri, processesDir <+: uri → route uri =
    (([Resource.filedirs, .files, .children, .io].find? fun r => '/' :: r.name <:+: uri).map
      (forProcess uri)).getD .static
  process : ∀ v resource, -2 ^ 63 ≤ v → v < 2 ^ 63 → route (processUri v resource) =
    if 0 < int32 v then .process resource (int32 v) else .badPid
  positive : ∀ uri resource p, route uri = .process resource p → 0 < p ∧ processesDir <+: uri ∧
    '/' :: resource.name <:+: uri ∧ p = atoi ((uri.drop processesDir.length).takeWhile (· ≠ '/'))
  table : ∀ e ∈ apiRoutes, route e.1 = e.2
  others : ∀ uri, uri ∉ apiRoutes.map (·.1) → ¬ processesDir <+: uri → route uri = .static

private theorem forProcess_positive {uri : Str} {asked resource : Resource} {p : Int}
    (h : forProcess uri asked = .process resource p)
    (hpre : processesDir <+: uri) : resource = asked ∧ 0 < p ∧
      p = atoi ((uri.drop processesDir.length).takeWhile (· ≠ '/')) := by
  rw [forProcess] at h
  split at h
  · rename_i hpos
    obtain ⟨rfl, rfl⟩ := Endpoint.process.inj h
    refine ⟨rfl, hpos, ?_⟩
    have hread : ∀ v : Int, 0 < (if '/' :: asked.name ≠ [] ∧ uri.length < processesDir.length +
        ((uri.drop processesDir.length).takeWhile (· ≠ '/')).length + ('/' :: asked.name).length then -1 else v) →
        (if '/' :: asked.name ≠ [] ∧ uri.length < processesDir.length +
        ((uri.drop processesDir.length).takeWhile (· ≠ '/')).length + ('/' :: asked.name).length then -1 else v) =
          v := by
      intro v hv
      split at hv
      · omega
      · rename_i hlen
        rw [if_neg hlen]
    rw [extractPidFromUri, if_neg (not_not.mpr hpre)] at hpos ⊢
    exact hread _ hpos
  · cases h

theorem routes : Routes where
  below _ := route_processes
  process v resource hv hv' := by
    have hfound : ∀ other : Resource, ('/' :: other.name <:+: processUri v resource) = (other.name <+: resource.name) :=
      fun other => propext (infix_processUri v resource other)
    have hfor : forProcess (processUri v resource) resource =
        if 0 < int32 v then .process resource (int32 v) else .badPid := by
      rw [forProcess, extractPid_processUri hv hv']
    have hfirst : ([Resource.filedirs, .files, .children, .io].find? fun r => '/' :: r.name <:+:
        processUri v resource) =
        some resource := by
      simp only [hfound]
      cases resource <;> decide
    have hpre : processesDir <+: processUri v resource := List.prefix_append _ _
    rw [route_processes hpre, hfirst, Option.map_some, Option.getD_some, hfor]
  positive uri resource p h := by
    by_cases hpre : processesDir <+: uri
    · rw [route_processes hpre] at h
      cases hfirst : ([Resource.filedirs, .files, .children, .io].find? fun r => '/' :: r.name <:+: uri) with
      | none =>
        rw [hfirst] at h
        cases h
      | some asked =>
        rw [hfirst] at h
        have hheld := List.find?_some hfirst
        rw [decide_eq_true_eq] at hheld
        obtain ⟨rfl, hpos, hpid⟩ := forProcess_positive h hpre
        exact ⟨hpos, hpre, hheld, hpid⟩
    · by_cases hin : uri ∈ apiRoutes.map (·.1)
      · obtain ⟨e, he, rfl⟩ := List.mem_map.mp hin
        rw [route_apiRoutes e he] at h
        have hplain : ∀ e ∈ apiRoutes, e.2 ≠ .process resource p := by simp [apiRoutes]
        exact absurd h (hplain e he)
      · rw [route_of_notMem hin hpre] at h
        cases h
  table := route_apiRoutes
  others _ := route_of_notMem

theorem routes_files : route (processUri 12 .files) = .process .files 12 ∧ 0 < (12 : Int) ∧
    route (processUri (2 ^ 32 + 12) .io) = .process .io 12 ∧ route (processUri (2 ^ 31) .io) = .badPid ∧
    route "/api/summary".toList = .summary ∧ route "/index.html".toList = .static ∧
    route "/api/processes/5/files/io".toList = .process .files 5 ∧ route "/api/processes/5/foo".toList = .static :=
  ⟨routes.process 12 .files (by decide) (by decide),
    (routes.positive _ _ _ (routes.process 12 .files (by decide) (by decide))).1,
    routes.process (2 ^ 32 + 12) .io (by decide) (by decide), routes.process (2 ^ 31) .io (by decide) (by decide),
    routes.table ("/api/summary".toList, .summary) (by decide),
      routes.others "/index.html".toList (by decide) (by decide),
    (routes.below "/api/processes/5/files/io".toList (by decide)).trans (by decide),
    (routes.below "/api/processes/5/foo".toList (by decide)).trans (by decide)⟩

end Bdtrace
