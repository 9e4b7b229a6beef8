import Bdtrace.General.Tallies
import Bdtrace.View.Diagnostics
import Bdtrace.Web.QueryParams
import Bdtrace.Web.Routing
import Mathlib.Data.List.Sort
import Mathlib.Data.Prod.Lex

/-! The failed accesses by error and by file, on the command line and from the web server. -/
namespace Bdtrace
open Std (TreeMap)

def errnoName (e : Int) : Str :=
  match e with
  | 1 => "EPERM".toList
  | 2 => "ENOENT".toList
  | 13 => "EACCES".toList
  | 17 => "EEXIST".toList
  | 20 => "ENOTDIR".toList
  | 21 => "EISDIR".toList
  | 22 => "EINVAL".toList
  | 36 => "ENAMETOOLONG".toList
  | 40 => "ELOOP".toList
  | _ => []

/-- `Database::get_all_failed_accesses`. -/
def Tables.getAllFailedAccesses (t : Tables) : List Tables.StoredAccess :=
  t.failedAccesses.flatMap fun a => (t.files.filter fun f => f.id = a.fileId).map fun f =>
    ⟨int32 a.pid, some f.path, int32 a.mode, int32 a.errnoVal, a.timestampUs⟩

structure ErrnoJson where
  errnoVal : Int
  name : Str
  count : Nat
  deriving DecidableEq, Repr

structure FailedFileJson where
  filename : Str
  count : Nat
  deriving DecidableEq, Repr

/-- What `GET /api/failures` answers. -/
structure FailuresAnswer where
  total : Int
  byErrno : List ErrnoJson
  byFile : List FailedFileJson
  deriving DecidableEq, Repr

section Counting
variable (failures : List Tables.StoredAccess)

/-- The failures that are counted: those of one error if it is positive. -/
def filterErrno (errno : Int) : List Tables.StoredAccess :=
  if errno > 0 then failures.filter fun r => r.detail = errno else failures

def errnoCounts : TreeMap Int Nat :=
  failures.foldl (fun counts r => counts.alter r.detail fun n => some (n.getD 0 + 1)) ∅

def fileCounts : TreeMap Str Nat :=
  failures.foldl (fun counts r => counts.alter (r.path.getD []) fun n => some (n.getD 0 + 1)) ∅

/-- The files with their counts negated, as `std::sort` orders such pairs. -/
def sortedFiles : List (Int ×ₗ Str) :=
  ((fileCounts failures).toList.map fun e => toLex (-(e.2 : Int), e.1)).insertionSort (· ≤ ·)

def failuresAnswer : FailuresAnswer where
  total := int32 failures.length
  byErrno := (errnoCounts failures).toList.map fun e => ⟨e.1, errnoName e.1, e.2⟩
  byFile := ((sortedFiles failures).take 20).map fun e => ⟨(ofLex e).2, (-(ofLex e).1).toNat⟩

end Counting

/-- `GET /api/failures`. -/
def handleFailures (t : Tables) (query : Str) : FailuresAnswer :=
  let errnoStr := getQueryParam query "errno".toList
  failuresAnswer (filterErrno t.getAllFailedAccesses (if errnoStr = [] then 0 else atoi errnoStr))

/-! ### The printed report -/

/-- `%5d`. -/
def padLeft (width : Nat) (s : Str) : Str := List.replicate (width - s.length) ' ' ++ s

def errnoLine (e : Int × Nat) : Str :=
  if errnoName e.1 ≠ [] then
    "  ".toList ++ errnoName e.1 ++ " (errno ".toList ++ decimal e.1 ++ "): ".toList ++ decimal e.2
  else "  errno ".toList ++ decimal e.1 ++ ": ".toList ++ decimal e.2

def fileLine (e : Int ×ₗ Str) : Str :=
  "  ".toList ++ padLeft 5 (decimal (-(ofLex e).1)) ++ "  ".toList ++ cString (ofLex e).2

/-- The lines of `cmd_failures`. -/
def cmdFailures (t : Tables) (errno : Int) : List Str :=
  let failures := t.getAllFailedAccesses
  if failures = [] then ["No failed accesses recorded.".toList]
  else
    let failures := filterErrno failures errno
    let files := sortedFiles failures
    ["=== Failed File Accesses (".toList ++ decimal (int32 failures.length) ++ " total) ===".toList, [],
      "By error code:".toList] ++ (errnoCounts failures).toList.map errnoLine ++
      [[], "Top ".toList ++ decimal (min 20 files.length : Nat) ++ " files with failures:".toList] ++
      (files.take 20).map fileLine

/-- The answer as it would be printed. -/
def FailuresAnswer.lines (a : FailuresAnswer) : List Str :=
  ["=== Failed File Accesses (".toList ++ decimal a.total ++ " total) ===".toList, [], "By error code:".toList] ++
    a.byErrno.map (fun e => errnoLine (e.errnoVal, e.count)) ++
    [[], "Top ".toList ++ decimal a.byFile.length ++ " files with failures:".toList] ++
    a.byFile.map fun f => "  ".toList ++ padLeft 5 (decimal f.count) ++ "  ".toList ++ cString f.filename

/-! ### Counted rows -/

private theorem errnoCounts_eq (failures : List Tables.StoredAccess) :
    errnoCounts failures = Tally.tally (fun r : Tables.StoredAccess => some r.detail) 0 (fun n _ => n + 1) failures :=
      rfl

private theorem fileCounts_eq (failures : List Tables.StoredAccess) :
    fileCounts failures = Tally.tally (fun r : Tables.StoredAccess => some (r.path.getD [])) 0
      (fun n _ => n + 1) failures := rfl

section Counted
variable {κ : Type} [DecidableEq κ]

/-- How many of the failures have this key. -/
def countOf (key : Tables.StoredAccess → κ) (failures : List Tables.StoredAccess) (k : κ) : Nat :=
  (failures.filter fun r => key r = k).length

variable [Ord κ] [Std.TransOrd κ] [Std.LawfulEqOrd κ]

private theorem mem_counted {key : Tables.StoredAccess → κ} {failures : List Tables.StoredAccess} {e : κ × Nat} :
    e ∈ (Tally.tally (fun r => some (key r)) 0 (fun n _ => n + 1) failures).toList ↔
      (∃ r ∈ failures, key r = e.1) ∧ e.2 = countOf key failures e.1 := by
  rw [Tally.mem_toList_tally, Tally.rowsOf_some, List.foldl_add_const, Nat.zero_add, Nat.one_mul, countOf]
  simp only [Option.some.injEq]

end Counted

/-! ### An answer -/

/-- More accesses, or as many and the smaller name. -/
def FailedFileJson.Before (a b : FailedFileJson) : Prop :=
  b.count < a.count ∨ a.count = b.count ∧ a.filename < b.filename

/-- The answer counts the failures: under each error, in ascending order, and for the twenty files with the most. -/
structure FailuresAnswer.Counts (a : FailuresAnswer) (failures : List Tables.StoredAccess) : Prop where
  total : a.total = failures.length
  ascending : (a.byErrno.map (·.errnoVal)).Pairwise (· < ·)
  errnos : ∀ e, e ∈ a.byErrno.map (·.errnoVal) ↔ ∃ r ∈ failures, r.detail = e
  byErrno : ∀ row ∈ a.byErrno, row.name = errnoName row.errnoVal ∧ row.count = countOf (·.detail) failures row.errnoVal
  sum : (a.byErrno.map (·.count)).sum = failures.length
  byFile : ∀ row ∈ a.byFile, (∃ r ∈ failures, r.path.getD [] = row.filename) ∧
    row.count = countOf (·.path.getD []) failures row.filename
  ranked : a.byFile.Pairwise FailedFileJson.Before
  shown : a.byFile.length = min 20 (failures.map (·.path.getD [])).dedup.length
  others : ∀ r ∈ failures, r.path.getD [] ∉ a.byFile.map (·.filename) → ∀ row ∈ a.byFile,
    row.Before ⟨r.path.getD [], countOf (·.path.getD []) failures (r.path.getD [])⟩

/-- The row that a pair stands for. -/
def fileRow (e : Int ×ₗ Str) : FailedFileJson := ⟨(ofLex e).2, (-(ofLex e).1).toNat⟩

private theorem mem_sortedFiles {failures : List Tables.StoredAccess} {e : Int ×ₗ Str} : e ∈ sortedFiles failures ↔
    (∃ r ∈ failures, r.path.getD [] = (ofLex e).2) ∧
      (ofLex e).1 = -(countOf (·.path.getD []) failures (ofLex e).2 : Int) := by
  rw [sortedFiles, List.mem_insertionSort, List.mem_map]
  constructor
  · rintro ⟨e', he', rfl⟩
    rw [fileCounts_eq, mem_counted] at he'
    exact ⟨he'.1, by rw [ofLex_toLex, he'.2]⟩
  · rintro ⟨hfile, hcount⟩
    refine ⟨((ofLex e).2, countOf (·.path.getD []) failures (ofLex e).2), ?_, ?_⟩
    · rw [fileCounts_eq, mem_counted]
      exact ⟨hfile, rfl⟩
    · rw [← hcount]
      rfl

private theorem sortedFiles_pairwise (failures : List Tables.StoredAccess) : (sortedFiles failures).Pairwise (· ≤ ·) :=
  List.pairwise_insertionSort _ _

private theorem names_perm (failures : List Tables.StoredAccess) :
    ((sortedFiles failures).map fun e => (ofLex e).2).Perm ((fileCounts failures).toList.map Prod.fst) := by
  have hperm :=
    (List.perm_insertionSort (· ≤ ·) ((fileCounts failures).toList.map fun e => toLex (-(e.2 : Int), e.1))).map
    fun e : Int ×ₗ Str => (ofLex e).2
  rw [List.map_map] at hperm
  exact hperm

private theorem nodup_names (failures : List Tables.StoredAccess) :
    ((sortedFiles failures).map fun e => (ofLex e).2).Nodup := by
  rw [(names_perm failures).nodup_iff, fileCounts_eq]
  exact Tally.nodup_keys_tally failures

private theorem length_sortedFiles (failures : List Tables.StoredAccess) :
    (sortedFiles failures).length = (failures.map (·.path.getD [])).dedup.length := by
  have hsame : ((sortedFiles failures).map fun e => (ofLex e).2).Perm (failures.map (·.path.getD [])).dedup := by
    apply (List.perm_ext_iff_of_nodup (nodup_names failures) (List.nodup_dedup _)).mpr
    intro name
    rw [(names_perm failures).mem_iff, fileCounts_eq, Tally.mem_keys_tally, List.mem_dedup, List.mem_map]
    simp only [Option.some.injEq]
  rw [← hsame.length_eq, List.length_map]

/-- Pairs in order stand for rows in order. -/
private theorem before_of_le {failures : List Tables.StoredAccess} {e e' : Int ×ₗ Str} (he : e ∈ sortedFiles failures)
    (he' : e' ∈ sortedFiles failures) (hle : e ≤ e') (hne : (ofLex e).2 ≠ (ofLex e').2) :
    (fileRow e).Before (fileRow e') := by
  have hcount := (mem_sortedFiles.mp he).2
  have hcount' := (mem_sortedFiles.mp he').2
  have hlt : e < e' := lt_of_le_of_ne hle fun h => hne (h ▸ rfl)
  simp only [FailedFileJson.Before, fileRow]
  rcases (Tally.lt_iff_outranks hcount hcount').mp hlt with hmore | ⟨hsame, hname⟩
  · left
    omega
  · right
    exact ⟨by omega, hname⟩

private theorem sortedFiles_before (failures : List Tables.StoredAccess) :
    (sortedFiles failures).Pairwise fun e e' => (fileRow e).Before (fileRow e') := by
  have hne := List.pairwise_map.mp (nodup_names failures)
  refine ((sortedFiles_pairwise failures).and hne).imp_of_mem fun he he' h => ?_
  exact before_of_le he he' h.1 h.2

private theorem errnoCounts_ascending (failures : List Tables.StoredAccess) :
    ((errnoCounts failures).toList.map Prod.fst).Pairwise (· < ·) := by
  rw [List.pairwise_map]
  exact TreeMap.ordered_keys_toList.imp fun h => compare_lt_iff_lt.mp h

private theorem failuresAnswer_counts {failures : List Tables.StoredAccess} (hlen : failures.length < 2 ^ 31) :
    (failuresAnswer failures).Counts failures := by
  have herrnos : (failuresAnswer failures).byErrno.map (·.errnoVal) = (errnoCounts failures).toList.map Prod.fst := by
    rw [failuresAnswer, List.map_map]
    rfl
  have hkeys : ∀ e, e ∈ (errnoCounts failures).toList.map Prod.fst ↔
      ∃ r ∈ failures, some r.detail = some e := fun e => by
    rw [errnoCounts_eq, Tally.mem_keys_tally]
  have hcount : ∀ e ∈ (errnoCounts failures).toList, e.2 = countOf (·.detail) failures e.1 := fun e he => by
    rw [errnoCounts_eq, mem_counted] at he
    exact he.2
  have hshown : (failuresAnswer failures).byFile.map (·.filename) =
      ((sortedFiles failures).take 20).map fun e => (ofLex e).2 := by
    rw [failuresAnswer, List.map_map]
    rfl
  have htotal : int32 failures.length = failures.length :=
    int32_of_small (Int.natCast_nonneg _) (by exact_mod_cast hlen)
  refine ⟨?_, ?_, ?_, ?_, ?_, ?_, ?_, ?_, ?_⟩
  · rw [failuresAnswer, htotal]
  · rw [herrnos]
    exact errnoCounts_ascending failures
  · intro e
    rw [herrnos, hkeys]
    simp only [Option.some.injEq]
  · intro row hrow
    obtain ⟨e, he, rfl⟩ := List.mem_map.mp hrow
    exact ⟨rfl, hcount e he⟩
  · have hnodup := (errnoCounts_ascending failures).imp fun h : _ < _ => ne_of_lt h
    have hsum := Tally.sum_rowsOf hnodup hkeys
    rw [List.filterMap_eq_map', List.length_map] at hsum
    have hrows : ∀ e ∈ (errnoCounts failures).toList,
        e.2 = (Tally.rowsOf (fun r : Tables.StoredAccess => some r.detail) failures e.1).length := fun e he => by
      rw [hcount e he, countOf, Tally.rowsOf_some]
    rw [← hsum, failuresAnswer, List.map_map, List.map_map]
    exact congrArg List.sum (List.map_congr_left hrows)
  · intro row hrow
    obtain ⟨e, he, rfl⟩ := List.mem_map.mp hrow
    obtain ⟨hfile, hnum⟩ := mem_sortedFiles.mp (List.mem_of_mem_take he)
    refine ⟨hfile, ?_⟩
    show (-(ofLex e).1).toNat = countOf (·.path.getD []) failures (ofLex e).2
    rw [hnum, neg_neg, Int.toNat_natCast]
  · exact List.pairwise_map.mpr ((sortedFiles_before failures).sublist (List.take_sublist _ _))
  · rw [failuresAnswer, List.length_map, List.length_take, length_sortedFiles]
  · intro r hr hnot row hrow
    obtain ⟨e, he, rfl⟩ := List.mem_map.mp hrow
    rw [hshown] at hnot
    have hother : toLex (-(countOf (·.path.getD []) failures (r.path.getD []) : Int), r.path.getD []) ∈
        sortedFiles failures :=
      mem_sortedFiles.mpr ⟨⟨r, hr, rfl⟩, rfl⟩
    have hbehind := Tally.behind_take (sortedFiles_before failures) hother fun hin => hnot (List.mem_map_of_mem hin)
    simpa [fileRow] using hbehind.2 e he

private theorem lines_failuresAnswer (failures : List Tables.StoredAccess) : (failuresAnswer failures).lines =
    ["=== Failed File Accesses (".toList ++ decimal (int32 failures.length) ++ " total) ===".toList, [],
      "By error code:".toList] ++ (errnoCounts failures).toList.map errnoLine ++
      [[], "Top ".toList ++ decimal (min 20 (sortedFiles failures).length : Nat) ++ " files with failures:".toList] ++
      ((sortedFiles failures).take 20).map fileLine := by
  have hfile : ∀ e ∈ (sortedFiles failures).take 20,
      "  ".toList ++ padLeft 5 (decimal (fileRow e).count) ++ "  ".toList ++
      cString (fileRow e).filename = fileLine e := by
    intro e he
    have hnum := (mem_sortedFiles.mp (List.mem_of_mem_take he)).2
    have hcount : ((fileRow e).count : Int) = -(ofLex e).1 := Int.toNat_of_nonneg (by omega)
    rw [hcount, fileLine, fileRow]
  simp only [FailuresAnswer.lines, failuresAnswer, List.map_map, List.length_map, List.length_take]
  congr 1
  exact List.map_congr_left hfile

/-! ### The requests -/

/-- The request for the failures of one error. -/
def errnoQuery (e : Int) : Str := "errno=".toList ++ decimal e

private theorem encode_decimal (e : Int) : encodeURIComponent.encode (decimal e) = decimal e := by
  have hkeep : ∀ c ∈ decimal e, encodeURIComponent.keep c = true := by
    intro c hc
    rw [Json.decimal_eq, List.mem_append] at hc
    rcases hc with hc | hc
    · split at hc
      · rw [List.mem_singleton.mp hc]
        decide
      · cases hc
    · simp [encodeURIComponent, Char.isAlphanum, (digitChars_facts e.natAbs).2.1 c hc]
  rw [PercentEncoding.encode, List.flatMap_congr (g := fun c => [c]) fun c hc => by rw [if_pos (hkeep c hc)]]
  exact List.flatMap_singleton' _

private theorem getQueryParam_errno (e : Int) : getQueryParam (errnoQuery e) "errno".toList = decimal e := by
  have h := getQueryParam_encode encodeURIComponent "errno".toList (decimal e) (decimal_bytes e) none
  rw [Option.elim_none, List.append_nil, encode_decimal] at h
  exact h

private theorem handleFailures_errno (t : Tables) {e : Int} (hpos : 0 < e) (hint : e < 2 ^ 31) :
    handleFailures t (errnoQuery e) =
    failuresAnswer (filterErrno t.getAllFailedAccesses e) := by
  rw [handleFailures]
  simp only [getQueryParam_errno]
  rw [if_neg (decimal_ne_nil e), atoi_decimal_int (by omega) hint]

private theorem handleFailures_all (t : Tables) {query : Str} (h : atoi (getQueryParam query "errno".toList) ≤ 0) :
    handleFailures t query = failuresAnswer t.getAllFailedAccesses := by
  have hfilter : ∀ e : Int, e ≤ 0 → filterErrno t.getAllFailedAccesses e = t.getAllFailedAccesses := fun e he =>
    if_neg (not_lt.mpr he)
  simp only [handleFailures]
  split
  · rw [hfilter 0 le_rfl]
  · rw [hfilter _ h]

section Stored
variable {t : Tables}

private theorem length_getAllFailedAccesses (hs : t.Sound) :
    t.getAllFailedAccesses.length = t.failedAccesses.length := by
  have hone : ∀ a ∈ t.failedAccesses, (t.files.filter fun f => f.id = a.fileId).length = 1 := by
    intro a ha
    obtain ⟨f, hf, hid⟩ := List.mem_map.mp (hs.failureFiles a ha)
    rw [Tables.filter_id_eq hs.fileIds]
    cases hfind : t.files.find? fun g => g.id = a.fileId with
    | none => simpa [hid] using List.find?_eq_none.mp hfind f hf
    | some g => rfl
  rw [Tables.getAllFailedAccesses, List.length_flatMap]
  simp only [List.length_map]
  rw [List.map_congr_left hone, List.map_const', List.sum_replicate_nat, Nat.mul_one]

private theorem detail_lt {r : Tables.StoredAccess} (hr : r ∈ t.getAllFailedAccesses) : r.detail < 2 ^ 31 := by
  obtain ⟨a, -, hr⟩ := List.mem_flatMap.mp hr
  obtain ⟨f, -, rfl⟩ := List.mem_map.mp hr
  exact Int.bmod_lt (by decide)

end Stored

/-- The server counts all failures, as many as the summary says, and opens one error as its row shows it; the command
line prints the same numbers. -/
structure FailuresAgree (t : Tables) : Prop where
  unfiltered : ∀ query, atoi (getQueryParam query "errno".toList) ≤ 0 →
    (handleFailures t query).Counts t.getAllFailedAccesses
  summary : t.Sound → (handleFailures t []).total = t.getFailedAccessCount
  opened : ∀ e, 0 < e → e < 2 ^ 31 →
    (handleFailures t (errnoQuery e)).Counts (t.getAllFailedAccesses.filter fun r => r.detail = e)
  row : ∀ row ∈ (handleFailures t []).byErrno, 0 < row.errnoVal →
    (handleFailures t (errnoQuery row.errnoVal)).total = row.count ∧
      (handleFailures t (errnoQuery row.errnoVal)).byErrno = [row]
  printed : t.getAllFailedAccesses ≠ [] → cmdFailures t 0 = (handleFailures t []).lines ∧
    ∀ e, 0 < e → e < 2 ^ 31 → cmdFailures t e = (handleFailures t (errnoQuery e)).lines

/-- An answer to the failures of one error has one row. -/
theorem FailuresAnswer.Counts.single {a : FailuresAnswer} {failures : List Tables.StoredAccess} (h : a.Counts failures)
    {e : Int} (hall : ∀ r ∈ failures, r.detail = e) (hne : failures ≠ []) :
    a.byErrno = [⟨e, errnoName e, failures.length⟩] := by
  have hvals : ∀ row ∈ a.byErrno, row.errnoVal = e := by
    intro row hrow
    obtain ⟨r, hr, hdetail⟩ := (h.errnos row.errnoVal).mp (List.mem_map_of_mem hrow)
    rw [← hdetail, hall r hr]
  have hcount : countOf (·.detail) failures e = failures.length := by
    rw [countOf, List.filter_eq_self.mpr fun r hr => by simpa using hall r hr]
  obtain ⟨first, hfirst⟩ := List.exists_mem_of_ne_nil _ hne
  have hin : e ∈ a.byErrno.map (·.errnoVal) := (h.errnos e).mpr ⟨first, hfirst, hall first hfirst⟩
  have hasc := h.ascending
  match hrows : a.byErrno with
  | [] =>
    rw [hrows] at hin
    cases hin
  | [row] =>
    have hrow : row ∈ a.byErrno := hrows ▸ List.mem_cons_self
    have hval := hvals row hrow
    obtain ⟨hname, hnum⟩ := h.byErrno row hrow
    rw [hval] at hname hnum
    rw [hcount] at hnum
    rw [← hname, ← hnum, ← hval]
  | row :: row' :: rows =>
    rw [hrows] at hvals hasc
    have hlt : row.errnoVal < row'.errnoVal := (List.pairwise_cons.mp hasc).1 row'.errnoVal List.mem_cons_self
    rw [hvals row List.mem_cons_self, hvals row' (List.mem_cons_of_mem _ List.mem_cons_self)] at hlt
    exact absurd hlt (lt_irrefl e)

theorem failed_accesses (t : Tables) (hlen : t.getAllFailedAccesses.length < 2 ^ 31) : FailuresAgree t := by
  have hnone : atoi (getQueryParam [] "errno".toList) ≤ 0 := by decide
  have hopened : ∀ e, 0 < e → e < 2 ^ 31 →
      (handleFailures t (errnoQuery e)).Counts (t.getAllFailedAccesses.filter fun r => r.detail = e) := by
    intro e hpos hint
    rw [handleFailures_errno t hpos hint, filterErrno, if_pos hpos]
    exact failuresAnswer_counts (lt_of_le_of_lt (List.length_filter_le _ _) hlen)
  refine ⟨fun query hquery => ?_, fun hs => ?_, hopened, fun row hrow hpos => ?_,
    fun hne => ⟨?_, fun e hpos hint => ?_⟩⟩
  · rw [handleFailures_all t hquery]
    exact failuresAnswer_counts hlen
  · rw [handleFailures_all t hnone, failuresAnswer, length_getAllFailedAccesses hs, Tables.getFailedAccessCount]
  · rw [handleFailures_all t hnone] at hrow
    have hcounts := failuresAnswer_counts hlen
    obtain ⟨hname, hnum⟩ := hcounts.byErrno row hrow
    obtain ⟨r, hr, hdetail⟩ := (hcounts.errnos row.errnoVal).mp (List.mem_map_of_mem hrow)
    have hone := hopened row.errnoVal hpos (hdetail ▸ detail_lt hr)
    have hne : (t.getAllFailedAccesses.filter fun r => r.detail = row.errnoVal) ≠ [] :=
      List.ne_nil_of_mem (List.mem_filter.mpr ⟨hr, by simpa using hdetail⟩)
    have hall : ∀ r ∈ t.getAllFailedAccesses.filter fun r => r.detail = row.errnoVal, r.detail = row.errnoVal :=
      fun r hr => by
      simpa using (List.mem_filter.mp hr).2
    refine ⟨by rw [hone.total, hnum, countOf], ?_⟩
    rw [hone.single hall hne, ← hname, ← countOf, ← hnum]
  · rw [handleFailures_all t hnone, lines_failuresAnswer, cmdFailures, if_neg hne]
    rfl
  · rw [handleFailures_errno t hpos hint, lines_failuresAnswer, cmdFailures, if_neg hne]

private def missingHeaders : Tables where
  processes := [{ pid := 1, ppid := 0 }]
  files := [⟨1, "/usr/include/a.h".toList⟩, ⟨2, "/root/b.h".toList⟩]
  failedAccesses := [⟨1, 1, 1, 0, 2, 5⟩, ⟨2, 1, 2, 0, 13, 6⟩, ⟨3, 1, 1, 3, 2, 7⟩]

theorem failed_accesses_missingHeaders : FailuresAgree missingHeaders ∧
    (handleFailures missingHeaders (errnoQuery 2)).total = 2 :=
  ⟨failed_accesses missingHeaders (by decide), by
    have hcounts := (failed_accesses missingHeaders (by decide)).opened 2 (by decide) (by decide)
    exact hcounts.total⟩

end Bdtrace
