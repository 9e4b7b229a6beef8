import Bdtrace.CStrings
import Bdtrace.General.PrefixIntervals
import Bdtrace.Store.Tables

/-! The queries that select accesses by a path prefix, as a range of the path index. -/
namespace Bdtrace

/-- `if (!pfx.empty() && pfx[pfx.size() - 1] != '/') pfx += '/'`. -/
def completePrefix (pfx : Str) : Str := if pfx ≠ [] ∧ pfx.getLast? ≠ some '/' then pfx ++ ['/'] else pfx

/-- The last character incremented. -/
def upperBound (pfx : Str) : Str :=
  match pfx.getLast? with
  | none => []
  | some c => pfx.dropLast ++ [Char.ofNat ((c.toNat + 1) % 256)]

namespace Tables

structure JoinedAccess where
  row : FileAccessRow
  path : Str
  deriving DecidableEq, Repr

def JoinedAccess.stored (r : JoinedAccess) : StoredAccess :=
  ⟨r.row.pid, some r.path, r.row.mode, r.row.fd, r.row.timestampUs⟩

section Queries
variable (t : Tables)

/-- `FROM file_accesses a JOIN files f ON f.id = a.file_id`. -/
def joined : List JoinedAccess :=
  t.fileAccesses.flatMap fun a => (t.files.filter fun f => f.id = a.fileId).map fun f => ⟨a, f.path⟩

/-- `WHERE f.path >= ? AND f.path < ?`, compared byte by byte. -/
def joinedBetween (pfx upper : Str) : List JoinedAccess :=
  t.joined.filter fun r => cString pfx ≤ r.path ∧ r.path < cString upper

def getFileAccessesByPrefix (pfx : Str) : List StoredAccess :=
  (t.joinedBetween (completePrefix pfx) (upperBound (completePrefix pfx))).map JoinedAccess.stored

/-- The user data after the last row, and the number of rows. -/
def scanFileAccessesByPrefix {σ : Type} (pfx : Str) (cb : Int → Str → Int → σ → σ) (userData : σ) : σ × Nat :=
  (t.joinedBetween (completePrefix pfx) (upperBound (completePrefix pfx))).foldl
    (fun s r => (cb r.row.pid r.path r.row.mode s.1, s.2 + 1)) (userData, 0)

end Queries

/-! ### The interval of a prefix -/

private theorem slash_covBy : '/' ⋖ '0' := by
  refine ⟨by decide, fun c hl hr => ?_⟩
  rw [Char.lt_def, UInt32.lt_iff_toNat_lt] at hl hr
  have h1 : '/'.val.toNat = 47 := rfl
  have h2 : '0'.val.toNat = 48 := rfl
  omega

private theorem completePrefix_ne {pfx : Str} (h : pfx ≠ []) : ∃ dir, completePrefix pfx = dir ++ ['/'] := by
  rcases pfx.eq_nil_or_concat' with rfl | ⟨dir, c, rfl⟩
  · exact absurd rfl h
  · simp only [completePrefix, List.getLast?_concat, ne_eq, Option.some.injEq]
    split
    · exact ⟨dir ++ [c], rfl⟩
    · rename_i hc
      simp only [List.append_eq_nil_iff, List.cons_ne_nil, and_false, not_false_eq_true, true_and, not_not] at hc
      exact ⟨dir, by rw [hc]⟩

private theorem upperBound_slash (dir : Str) : upperBound (dir ++ ['/']) = dir ++ ['0'] := by
  rw [upperBound, List.getLast?_concat, List.dropLast_concat]
  rfl

/-- A path lies between the two bounds exactly if it begins with the completed text. -/
private theorem between_bounds_iff {pfx path : Str} (hpfx : pfx ≠ []) (hpath : '\x00' ∉ path) :
    cString (completePrefix pfx) ≤ path ∧ path < cString (upperBound (completePrefix pfx)) ↔
      completePrefix pfx <+: path := by
  obtain ⟨dir, hdir⟩ := completePrefix_ne hpfx
  rw [hdir, upperBound_slash]
  by_cases hnul : '\x00' ∈ dir
  · rw [cString_append_of_mem hnul, cString_append_of_mem hnul]
    constructor
    · intro h
      exact absurd h (PrefixIntervals.not_between_self _ _)
    · intro h
      exact absurd (h.subset (List.mem_append_left _ hnul)) hpath
  · rw [cString_of_notMem (by simpa using hnul), cString_of_notMem (by simpa using hnul)]
    exact PrefixIntervals.between_iff slash_covBy dir path

/-! ### The selected rows -/

section Selection
variable {t : Tables}

theorem mem_joined {r : JoinedAccess} : r ∈ t.joined ↔ r.row ∈ t.fileAccesses ∧ ⟨r.row.fileId, r.path⟩ ∈ t.files := by
  simp only [joined, List.mem_flatMap, List.mem_map, List.mem_filter, decide_eq_true_eq]
  constructor
  · rintro ⟨a, ha, f, ⟨hf, hid⟩, rfl⟩
    exact ⟨ha, hid ▸ hf⟩
  · rintro ⟨ha, hf⟩
    exact ⟨r.row, ha, _, ⟨hf, rfl⟩, rfl⟩

/-- The files of one key. -/
theorem filter_id_eq {files : List FileRow} (hids : (files.map (·.id)).Nodup) (fid : Int) :
    files.filter (fun f => f.id = fid) = (files.find? fun f => f.id = fid).toList := by
  induction files with
  | nil => rfl
  | cons f files ih =>
    rw [List.map_cons, List.nodup_cons] at hids
    by_cases hf : f.id = fid
    · have hnone : files.filter (fun f => f.id = fid) = [] := by
        refine List.filter_eq_nil_iff.mpr fun g hg => ?_
        simp only [decide_eq_true_eq]
        exact fun hgid => hids.1 (List.mem_map.mpr ⟨g, hg, hgid.trans hf.symm⟩)
      simp [hf, hnone]
    · simpa [hf] using ih hids.2

/-- With `files.id` a key, each access row is joined with its path, once. -/
private theorem joined_eq (hids : (t.files.map (·.id)).Nodup) :
    t.joined = t.fileAccesses.flatMap fun a => (t.pathOf a.fileId).toList.map fun path => ⟨a, path⟩ := by
  unfold joined
  congr 1
  funext a
  rw [filter_id_eq hids, pathOf]
  cases t.files.find? fun f => f.id = a.fileId <;> rfl

private theorem joined_filter_stored (hids : (t.files.map (·.id)).Nodup) (p : Str → Bool) :
    (t.joined.filter fun r => p r.path).map JoinedAccess.stored = t.accesses.filter fun r => r.path.any p := by
  rw [joined_eq hids, accesses]
  induction t.fileAccesses with
  | nil => rfl
  | cons a rows ih =>
    rw [List.flatMap_cons, List.filter_append, List.map_append, ih, List.map_cons, List.filter_cons]
    cases hpath : t.pathOf a.fileId with
    | none => simp
    | some path => cases hp : p path <;> simp [hp, JoinedAccess.stored]

theorem joinedBetween_eq (hnul : ∀ f ∈ t.files, '\x00' ∉ f.path) {pfx : Str} (hpfx : pfx ≠ []) :
    t.joinedBetween (completePrefix pfx) (upperBound (completePrefix pfx)) =
      t.joined.filter fun r => (completePrefix pfx).isPrefixOf r.path := by
  refine List.filter_congr fun r hr => ?_
  rw [decide_eq_decide.mpr (between_bounds_iff hpfx (hnul _ (mem_joined.mp hr).2)), Bool.eq_iff_iff, decide_eq_true_eq,
    List.isPrefixOf_iff_prefix]

end Selection

private theorem foldl_count {α σ : Type} (f : σ → α → σ) (l : List α) (s : σ) (n : Nat) :
    l.foldl (fun s r => (f s.1 r, s.2 + 1)) (s, n) = (l.foldl f s, n + l.length) := by
  induction l generalizing s n with
  | nil => rfl
  | cons a l ih =>
    rw [List.foldl_cons, ih, List.foldl_cons, List.length_cons]
    congr 1
    omega

private theorem getFileAccessesByPrefix_eq {t : Tables} (hids : (t.files.map (·.id)).Nodup)
    (hnul : ∀ f ∈ t.files, '\x00' ∉ f.path) {pfx : Str} (hpfx : pfx ≠ []) :
    t.getFileAccessesByPrefix pfx = t.accesses.filter fun a => a.path.any (completePrefix pfx).isPrefixOf := by
  rw [getFileAccessesByPrefix, joinedBetween_eq hnul hpfx, joined_filter_stored hids]

theorem scanFileAccessesByPrefix_eq {t : Tables} (hids : (t.files.map (·.id)).Nodup)
    (hnul : ∀ f ∈ t.files, '\x00' ∉ f.path) {pfx : Str} (hpfx : pfx ≠ []) {σ : Type}
    (cb : Int → Str → Int → σ → σ) (userData : σ) : t.scanFileAccessesByPrefix pfx cb userData =
      ((t.accesses.filter fun a => a.path.any (completePrefix pfx).isPrefixOf).foldl
          (fun s a => cb a.pid (a.path.getD []) a.mode s) userData,
        (t.accesses.filter fun a => a.path.any (completePrefix pfx).isPrefixOf).length) := by
  have hcount := foldl_count (fun s (r : JoinedAccess) => cb r.row.pid r.path r.row.mode s)
    (t.joined.filter fun r => (completePrefix pfx).isPrefixOf r.path) userData 0
  rw [scanFileAccessesByPrefix, joinedBetween_eq hnul hpfx, hcount, ← joined_filter_stored hids, List.length_map,
    List.foldl_map, Nat.zero_add]
  rfl

/-- Both prefix queries give the accesses whose path begins with the completed prefix: each row of the table once. -/
theorem prefix_queries_exact (t : Tables) (hids : (t.files.map (·.id)).Nodup)
    (hnul : ∀ f ∈ t.files, '\x00' ∉ f.path) (pfx : Str) (hpfx : pfx ≠ []) :
    t.getFileAccessesByPrefix pfx = t.accesses.filter (fun a => a.path.any (completePrefix pfx).isPrefixOf) ∧
    ∀ (σ : Type) (cb : Int → Str → Int → σ → σ) (userData : σ), t.scanFileAccessesByPrefix pfx cb userData =
      ((t.accesses.filter fun a => a.path.any (completePrefix pfx).isPrefixOf).foldl
          (fun s a => cb a.pid (a.path.getD []) a.mode s) userData,
        (t.accesses.filter fun a => a.path.any (completePrefix pfx).isPrefixOf).length) :=
  ⟨getFileAccessesByPrefix_eq hids hnul hpfx,
    fun _ cb userData => scanFileAccessesByPrefix_eq hids hnul hpfx cb userData⟩

/-- A sibling that shares the text without the slash is left out. -/
theorem prefix_queries_exact_usr : let t : Tables := {
      files := [⟨1, "/usr/lib".toList⟩, ⟨2, "/usr0".toList⟩, ⟨3, "/usr-local/x".toList⟩, ⟨4, "/usr".toList⟩]
      fileAccesses := [⟨1, 5, 1, 0, 3, 10⟩, ⟨2, 5, 2, 0, 3, 10⟩, ⟨3, 6, 3, 1, 3, 11⟩, ⟨4, 6, 4, 1, 3, 11⟩,
        ⟨5, 7, 1, 1, 4, 12⟩] }
    t.getFileAccessesByPrefix "/usr".toList =
      [⟨5, some "/usr/lib".toList, 0, 3, 10⟩, ⟨7, some "/usr/lib".toList, 1, 4, 12⟩] := by
  intro t
  rw [(prefix_queries_exact t (by decide) (by decide) _ (by decide)).1]
  decide

end Tables
end Bdtrace
