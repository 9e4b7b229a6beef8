import Bdtrace.View.Hotspots
import Bdtrace.Web.QueryKeys
import Bdtrace.Web.Routing
import Bdtrace.Web.SlowestProcesses
import Bdtrace.Web.SubtreeTotals
import Mathlib.Data.Prod.Lex

/-! The listings of files, and the pages of the listing of all of them. -/
namespace Bdtrace
open Std (TreeMap TreeSet)

/-- What `GET /api/files` answers. -/
inductive FilesAnswer where
  | page (totalCount offset limit : Int) (files : List FileStatRow)
  | all (files : List FileStatRow)
  deriving DecidableEq, Repr

structure PidAccess where
  modes : TreeSet Int
  firstTimestamp : Int

/-- One more access of a group that may be new. -/
def PidAccess.add (pa : Option PidAccess) (a : Tables.StoredAccess) : PidAccess :=
  match pa with
  | none => ⟨(∅ : TreeSet Int).insert a.mode, a.timestampUs⟩
  | some pa =>
    ⟨pa.modes.insert a.mode, if a.timestampUs < pa.firstTimestamp then a.timestampUs else pa.firstTimestamp⟩

/-- The names of the modes, joined with commas. -/
def modesText (modes : List Int) : Str :=
  modes.foldl (fun text mode => (if text ≠ [] then text ++ [','] else text) ++ modeStr mode) []

/-- A row of `GET /api/files/by-path`. -/
structure AccessorJson where
  pid : Int
  cmdline : Str
  mode : Int
  modeStr : Str
  timestampUs : Int
  info : Option ProcInfo
  deriving DecidableEq, Repr

/-- A row of `GET /api/files/by-prefix`. -/
structure PrefixRowJson where
  pid : Int
  cmdline : Str
  filename : Str
  modeStr : Str
  timestampUs : Int
  info : Option ProcInfo
  deriving DecidableEq, Repr

namespace Tables
variable (t : Tables)

/-- `GET /api/files`. -/
def handleFiles (query : Str) : FilesAnswer :=
  let offsetS := getQueryParam query "offset".toList
  let limitS := getQueryParam query "limit".toList
  let offset := if offsetS = [] then 0 else atoi offsetS
  let limit := if limitS = [] then 0 else atoi limitS
  let stats := t.getFileStatsGrouped
  let total := int32 stats.length
  if limit > 0 then
    let offset := if offset < 0 then 0 else offset
    let offset := if offset > total then total else offset
    let stop := int32 (offset + limit)
    let stop := if stop > total then total else stop
    .page total offset limit ((stats.drop offset.toNat).take (stop - offset).toNat)
  else .all stats

/-- `Database::get_file_accesses_by_name`. -/
def getFileAccessesByName (filename : Str) : List StoredAccess :=
  (t.joined.filter fun r => t.fileId (cString filename) = some r.row.fileId).map JoinedAccess.stored

/-- `Database::get_processes_by_pids`. -/
def getProcessesByPids (pids : TreeSet Int) : TreeMap Int ProcessRecord :=
  (t.processes.filter fun r => r.pid ∈ pids).foldl (fun out r => out.insert r.pid r) ∅

/-- `GET /api/files/by-path`. -/
def handleFilesByPath (path : Str) : List AccessorJson :=
  let accesses := t.getFileAccessesByName path
  let pidMap : TreeMap Int PidAccess := accesses.foldl (fun m a => m.alter a.pid fun pa => some (PidAccess.add pa a)) ∅
  let uniquePids : TreeSet Int := accesses.foldl (fun s a => s.insert a.pid) ∅
  let procCache := t.getProcessesByPids uniquePids
  pidMap.toList.map fun e => ⟨e.1, (procCache[e.1]?.map (·.cmdline)).getD [], -1, modesText e.2.modes.toList,
    e.2.firstTimestamp, procCache[e.1]?.map writeProcInfo⟩

/-- `GET /api/files/by-prefix`. -/
def handleFilesByPrefix (pfx : Str) : List PrefixRowJson :=
  let allFa := t.getFileAccessesByPrefix pfx
  let grouped : TreeMap (Int ×ₗ Str) PidAccess :=
    allFa.foldl (fun m a => m.alter (toLex (a.pid, a.path.getD [])) fun pa => some (PidAccess.add pa a)) ∅
  let uniquePids : TreeSet Int := allFa.foldl (fun s a => s.insert a.pid) ∅
  let procCache := t.getProcessesByPids uniquePids
  grouped.toList.map fun e => ⟨(ofLex e.1).1, (procCache[(ofLex e.1).1]?.map (·.cmdline)).getD [], (ofLex e.1).2,
    modesText e.2.modes.toList, e.2.firstTimestamp, procCache[(ofLex e.1).1]?.map writeProcInfo⟩

end Tables

instance : Std.LawfulEqOrd (Int ×ₗ Str) where
  eq_of_compare {a b} h := by
    rw [Prod.Lex.compare_def] at h
    obtain ⟨hfst, hsnd⟩ := Ordering.then_eq_eq.mp h
    exact congrArg toLex (Prod.ext (Std.LawfulEqOrd.eq_of_compare hfst) (Std.LawfulEqOrd.eq_of_compare hsnd))

/-! ### Pages -/

/-- The request for a page. -/
def pageQuery (offset limit : Int) : Str :=
  encodePairs encodeURIComponent [("offset".toList, decimal offset), ("limit".toList, decimal limit)]

private theorem getQueryParam_page (offset limit : Int) :
    getQueryParam (pageQuery offset limit) "offset".toList = decimal offset ∧
    getQueryParam (pageQuery offset limit) "limit".toList = decimal limit := by
  have heq : encodeURIComponent.keep '=' = false := by decide
  have hkeys : ∀ p ∈ [("offset".toList, decimal offset), ("limit".toList, decimal limit)], '=' ∉ p.1 := by
    simp only [List.forall_mem_cons]
    exact ⟨by decide, by decide, nofun⟩
  have hbytes : ∀ p ∈ [("offset".toList, decimal offset), ("limit".toList, decimal limit)],
      ∀ c ∈ p.2, c.toNat < 256 := by
    simp only [List.forall_mem_cons]
    exact ⟨decimal_bytes offset, decimal_bytes limit, nofun⟩
  have hfirst : "limit".toList.isSuffixOf "offset".toList = false := by decide
  have hsecond : "limit".toList.isSuffixOf ("offset".toList ++ '=' :: encodeURIComponent.encode (decimal offset) ++
      '&' :: "limit".toList) = true := by
    rw [List.isSuffixOf_iff_suffix]
    exact ⟨"offset".toList ++ '=' :: encodeURIComponent.encode (decimal offset) ++ ['&'], by simp⟩
  constructor
  · rw [pageQuery, getQueryParam_encodePairs heq hkeys hbytes]
    rfl
  · rw [pageQuery, getQueryParam_encodePairs heq hkeys hbytes]
    simp only [pairHeads, List.map_cons, List.map_nil, List.find?_cons, hfirst, hsecond,
      Option.map_some, Option.getD_some]

def FilesAnswer.files : FilesAnswer → List FileStatRow
  | page _ _ _ files => files
  | all files => files

namespace Tables
section Paging
variable {t : Tables}

/-- A page is the part of the listing from the offset on. -/
private theorem handleFiles_page {offset limit : Int} (hoffset : 0 ≤ offset) (hoffset' : offset < 2 ^ 31)
    (hlimit : 0 < limit)
    (hfit : (t.getFileStatsGrouped.length : Int) + limit < 2 ^ 31) : t.handleFiles (pageQuery offset limit) =
      .page t.getFileStatsGrouped.length (min offset t.getFileStatsGrouped.length) limit
        ((t.getFileStatsGrouped.drop offset.toNat).take limit.toNat) := by
  obtain ⟨stats, hstats⟩ : ∃ stats, stats = t.getFileStatsGrouped := ⟨_, rfl⟩
  rw [← hstats] at hfit ⊢
  have htotal : int32 stats.length = stats.length := int32_of_small (by omega) (by omega)
  have hcut : (if (stats.length : Int) < offset then (stats.length : Int) else offset) = min offset stats.length := by
    split <;> omega
  have hstop : int32 (min offset stats.length + limit) = min offset stats.length + limit :=
    int32_of_small (by omega) (by omega)
  have hpiece : (stats.drop (min offset stats.length).toNat).take
      ((if (stats.length : Int) < min offset stats.length + limit
      then (stats.length : Int) else min offset stats.length + limit) - min offset stats.length).toNat =
      (stats.drop offset.toNat).take limit.toNat := by
    rcases le_total offset stats.length with hle | hle
    · rw [min_eq_left hle]
      split
      · rename_i hlast
        rw [List.take_of_length_le (by rw [List.length_drop]; omega),
          List.take_of_length_le (by rw [List.length_drop]; omega)]
      · rw [show offset + limit - offset = limit by omega]
    · rw [min_eq_right hle, Int.toNat_natCast, List.drop_length, List.take_nil,
        List.drop_eq_nil_of_le (by omega), List.take_nil]
  simp only [handleFiles, ← hstats, getQueryParam_page, decimal_ne_nil, if_false, htotal,
    atoi_decimal_int (v := offset) (by omega) hoffset', atoi_decimal_int (v := limit) (by omega) (by omega),
      gt_iff_lt, hlimit,
    if_true, not_lt.mpr hoffset, hcut, hstop, hpiece]

/-- Consecutive pieces of one length. -/
private theorem flatMap_pieces {α : Type*} (xs : List α) (limit n : Nat) :
    ((List.range n).flatMap fun k => (xs.drop (k * limit)).take limit) = xs.take (n * limit) := by
  induction n with
  | zero => simp
  | succ n ih => rw [List.range_succ, List.flatMap_append, ih, Nat.succ_mul, List.take_add, List.flatMap_singleton]

/-- The pages one after another are the whole listing. -/
theorem pages_tile {limit : Nat} (hlimit : 0 < limit) (hfit : t.getFileStatsGrouped.length + limit < 2 ^ 31) :
    ((List.range ((t.getFileStatsGrouped.length + limit - 1) / limit)).flatMap fun k =>
      (t.handleFiles (pageQuery (k * limit : Nat) limit)).files) = t.getFileStatsGrouped := by
  have hpage : ∀ k ∈ List.range ((t.getFileStatsGrouped.length + limit - 1) / limit),
      (t.handleFiles (pageQuery (k * limit : Nat) limit)).files =
        (t.getFileStatsGrouped.drop (k * limit)).take limit := by
    intro k hk
    have hlt : k * limit < 2 ^ 31 := by
      have hle := Nat.div_mul_le_self (t.getFileStatsGrouped.length + limit - 1) limit
      have hmul := Nat.mul_le_mul_right limit (Nat.succ_le_of_lt (List.mem_range.mp hk))
      rw [Nat.succ_mul] at hmul
      omega
    rw [handleFiles_page (Int.natCast_nonneg _) (by exact_mod_cast hlt) (by exact_mod_cast hlimit)
      (by exact_mod_cast hfit)]
    rfl
  rw [List.flatMap_congr hpage, flatMap_pieces, List.take_of_length_le]
  have hdiv := Nat.div_add_mod (t.getFileStatsGrouped.length + limit - 1) limit
  have hmod := Nat.mod_lt (t.getFileStatsGrouped.length + limit - 1) hlimit
  rw [Nat.mul_comm] at hdiv
  omega

end Paging

end Tables
end Bdtrace
