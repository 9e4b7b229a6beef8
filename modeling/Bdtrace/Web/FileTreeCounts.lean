import Bdtrace.Web.FileTree

/-! What the rows of the drawn tree stand for and count. -/
namespace Bdtrace
open Tries (Forest)
open Words (words)

/-- A path whose row is the one at these parts, or below it. -/
def Passes (absolute : Bool) (parts : List Str) (path : Str) : Prop :=
  rooted path = absolute ∧ parts <+: words '/' path ∧ words '/' path ≠ []

instance (absolute : Bool) (parts : List Str) (path : Str) : Decidable (Passes absolute parts path) :=
  inferInstanceAs (Decidable (_ ∧ _))

theorem Passes.names {absolute : Bool} {parts : List Str} {path : Str} (h : Passes absolute parts path) :
    ∀ name ∈ parts, IsName name :=
  fun _ hname => isName_of_mem (h.2.1.subset hname)

/-- A row's path has no characters but those of the paths that pass it. -/
theorem Passes.mem {absolute : Bool} {parts : List Str} {path : Str} (h : Passes absolute parts path) {c : Char}
    (hc : c ∈ pathText absolute parts) : c = '/' ∨ c ∈ path := by
  rcases mem_pathText hc with hslash | ⟨name, hname, hin⟩
  · exact .inl hslash
  · exact .inr ((Words.mem_words (h.2.1.subset hname)).2.2 hin)

namespace Tables
variable {t : Tables}

/-- `absTree` or `relTree`, if building them does not fail. -/
def pathTree (t : Tables) (absolute : Bool) : Forest Str Nat := Tries.addAll (itemsOf absolute t.getFileStatsGrouped)

private theorem distinct_pathTree (t : Tables) (absolute : Bool) : (t.pathTree absolute).Distinct :=
  Tries.distinct_addAll _

/-- The accesses that a row stands for. -/
def passing (t : Tables) (absolute : Bool) (parts : List Str) : List JoinedAccess :=
  t.joined.filter fun r => Passes absolute parts r.path

section Stats
variable (hids : (t.files.map (·.id)).Nodup) (hpaths : (t.files.map (·.path)).Nodup)
include hids hpaths

private theorem filename_statRow {r : JoinedAccess} (hr : r ∈ t.joined) :
    (statRow (t.joined.filter fun r' => r'.row.fileId = r.row.fileId)).filename = r.path :=
  congrArg HotspotEntry.name (statRow_group hids hpaths hr)

theorem exists_stats {p : Str → Prop} : (∃ s ∈ t.getFileStatsGrouped, p s.filename) ↔ ∃ r ∈ t.joined, p r.path := by
  constructor
  · rintro ⟨s, hs, hp⟩
    obtain ⟨fid, hfid, rfl⟩ := List.mem_map.mp hs
    obtain ⟨r, hr, rfl⟩ := List.mem_map.mp (List.mem_dedup.mp hfid)
    rw [filename_statRow hids hpaths hr] at hp
    exact ⟨r, hr, hp⟩
  · rintro ⟨r, hr, hp⟩
    refine ⟨_, List.mem_map_of_mem (List.mem_dedup.mpr (List.mem_map_of_mem hr)), ?_⟩
    rw [filename_statRow hids hpaths hr]
    exact hp

/-- The numbers of the files add up to their accesses. -/
private theorem sum_stats (p : Str → Bool) :
    ((t.getFileStatsGrouped.filter fun s => p s.filename).map (·.accessCount)).sum =
    (t.joined.filter fun r => p r.path).length := by
  obtain ⟨fids, hfids⟩ : ∃ fids, fids = (t.joined.map (·.row.fileId)).dedup.filter fun fid =>
    p (statRow (t.joined.filter fun r => r.row.fileId = fid)).filename := ⟨_, rfl⟩
  have hmem : ∀ fid, fid ∈ fids ↔ ∃ r ∈ t.joined.filter (fun r => p r.path), some r.row.fileId = some fid := by
    intro fid
    rw [hfids, List.mem_filter, List.mem_dedup, List.mem_map]
    constructor
    · rintro ⟨⟨r, hr, rfl⟩, hp⟩
      rw [filename_statRow hids hpaths hr] at hp
      exact ⟨r, List.mem_filter.mpr ⟨hr, hp⟩, rfl⟩
    · rintro ⟨r, hr, heq⟩
      obtain ⟨hr, hp⟩ := List.mem_filter.mp hr
      obtain rfl := Option.some.inj heq
      exact ⟨⟨r, hr, rfl⟩, by rw [filename_statRow hids hpaths hr, hp]⟩
  have hgroup : ∀ fid ∈ fids, (statRow (t.joined.filter fun r => r.row.fileId = fid)).accessCount =
      (Tally.rowsOf (fun r : JoinedAccess => some r.row.fileId) (t.joined.filter fun r => p r.path) fid).length := by
    intro fid hfid
    rw [hfids] at hfid
    obtain ⟨hfid, hp⟩ := List.mem_filter.mp hfid
    obtain ⟨r, hr, rfl⟩ := List.mem_map.mp (List.mem_dedup.mp hfid)
    rw [filename_statRow hids hpaths hr] at hp
    rw [Tally.rowsOf_some, List.filter_filter]
    show (t.joined.filter fun r' => r'.row.fileId = r.row.fileId).length = _
    congr 1
    apply List.filter_congr
    intro r' hr'
    by_cases hsame : r'.row.fileId = r.row.fileId
    · rw [(fileId_eq_iff hids hpaths hr' hr).mp hsame, hp, Bool.and_true]
    · rw [decide_eq_false hsame, Bool.false_and]
  have hsum := Tally.sum_rowsOf ((List.nodup_dedup _).filter _ : (List.filter _ _).Nodup) (hfids ▸ hmem)
  rw [← hfids, List.filterMap_eq_map', List.length_map] at hsum
  rw [← hsum, getFileStatsGrouped, List.filter_map, List.map_map]
  have hfilter : ((t.joined.map (·.row.fileId)).dedup.filter ((fun s : FileStatRow => p s.filename) ∘ fun fid =>
      statRow (t.joined.filter fun r => r.row.fileId = fid))) = fids := by
    rw [hfids]
    rfl
  rw [hfilter]
  exact congrArg List.sum (List.map_congr_left hgroup)

/-- The items that pass through a sequence. -/
private theorem sum_itemsOf (absolute : Bool) (p : List Str → Bool) :
    (((itemsOf absolute t.getFileStatsGrouped).filter fun item => p item.1).map Prod.snd).sum =
      (t.joined.filter fun r => rooted r.path = absolute ∧ p (words '/' r.path)).length := by
  have hsum := sum_stats hids hpaths fun path => decide (rooted path = absolute ∧ p (words '/' path) = true)
  rw [← hsum, itemsOf, List.filter_map, List.map_map, List.filter_filter]
  congr 2
  apply List.filter_congr
  intro s _
  rw [Bool.decide_and, Bool.and_comm, Bool.decide_eq_true]
  rfl

private theorem exists_itemsOf (absolute : Bool) (p : List Str → Prop) :
    (∃ item ∈ itemsOf absolute t.getFileStatsGrouped, p item.1) ↔
    ∃ r ∈ t.joined, rooted r.path = absolute ∧ p (words '/' r.path) := by
  rw [← exists_stats hids hpaths (p := fun path => rooted path = absolute ∧ p (words '/' path))]
  simp only [itemsOf, List.mem_map, List.mem_filter, decide_eq_true_eq]
  constructor
  · rintro ⟨item, ⟨s, ⟨hs, hroot⟩, rfl⟩, hp⟩
    exact ⟨s, hs, hroot, hp⟩
  · rintro ⟨s, hs, hroot, hp⟩
    exact ⟨_, ⟨s, ⟨hs, hroot⟩, rfl⟩, hp⟩

private theorem value_tree (absolute : Bool) {parts : List Str} (hne : parts ≠ []) {count : Nat} :
    Tries.value parts (t.pathTree absolute) = some count ↔
      (∃ r ∈ t.joined, Passes absolute parts r.path) ∧ count = (t.passing absolute parts).length := by
  have hpass : ∀ path, Passes absolute parts path ↔ rooted path = absolute ∧ parts <+: words '/' path := by
    intro path
    refine ⟨fun h => ⟨h.1, h.2.1⟩, fun h => ⟨h.1, h.2, fun hnil => ?_⟩⟩
    rw [hnil] at h
    exact hne (List.prefix_nil.mp h.2)
  have hsum := sum_itemsOf hids hpaths absolute fun ws => decide (parts <+: ws)
  simp only [decide_eq_true_eq] at hsum
  have hsome := exists_itemsOf hids hpaths absolute fun ws => parts <+: ws
  rw [pathTree, Tries.value_addAll _ hne, hsum, passing]
  simp only [hpass]
  split
  · rename_i hin
    rw [Option.some.injEq, and_iff_right (hsome.mp hin), eq_comm]
  · rename_i hout
    exact iff_of_false nofun fun h => hout (hsome.mpr h.1)

private theorem total_tree : Tries.total (t.pathTree true) = (t.passing true []).length := by
  have hsum := sum_itemsOf hids hpaths true fun ws => decide (ws ≠ [])
  simp only [decide_eq_true_eq] at hsum
  rw [pathTree, Tries.total_addAll, hsum, passing]
  simp only [Passes, List.nil_prefix, true_and]

end Stats

/-! ### The rows of the listing -/

/-- The rows that are drawn when no name gets in the way. -/
def drawnRows (t : Tables) : List FileNode :=
  buildFileTree ((joinTrees (t.pathTree true) (t.pathTree false)).sorted Utf8.utf16Before) [] 0

/-- The nodes of both trees, with the root over the absolute paths. -/
def places (t : Tables) : List (Bool × List Str × Nat) :=
  (if t.pathTree true ≠ .nil then [(true, [], Tries.total (t.pathTree true))] else []) ++
    ((t.pathTree true).entries.map (fun e => (true, e.1, e.2)) ++ (t.pathTree false).entries.map fun e =>
      (false, e.1, e.2))

/-- How the row of a node is shown. -/
def placeText (x : Bool × List Str × Nat) : Str × Nat × Nat :=
  (pathText x.1 x.2.1, x.2.2, (if x.1 then 1 else 0) + x.2.1.length)

private theorem names_pathTree (t : Tables) (absolute : Bool) :
    ∀ e ∈ (t.pathTree absolute).entries, ∀ name ∈ e.1, IsName name := by
  rintro ⟨parts, count⟩ he name hname
  have hval := (Tries.mem_entries (t.distinct_pathTree absolute)).mp he
  rw [pathTree, Tries.value_addAll _ (List.ne_nil_of_mem hname)] at hval
  split at hval
  · rename_i hsome
    obtain ⟨item, hitem, hpre⟩ := hsome
    obtain ⟨file, -, rfl⟩ := List.mem_map.mp hitem
    exact isName_of_mem (hpre.subset hname)
  · cases hval

/-- The rows are those of the nodes. -/
theorem shown_places (t : Tables) : (t.drawnRows.map FileNode.shown).Perm (t.places.map placeText) := by
  refine (shown_joinTrees _ (t.names_pathTree true) (t.names_pathTree false)).trans (List.Perm.of_eq ?_)
  simp only [places, List.map_append, List.map_map]
  congr 1
  split <;> rfl

section Places
variable {t : Tables} (hids : (t.files.map (·.id)).Nodup) (hpaths : (t.files.map (·.path)).Nodup)
include hids hpaths

private theorem pathTree_ne_nil : t.pathTree true ≠ .nil ↔ ∃ r ∈ t.joined, Passes true [] r.path := by
  constructor
  · intro hne
    cases htree : t.pathTree true with
    | nil => exact absurd htree hne
    | cons name count children rest =>
      have hfirst : ([name], count) ∈ (t.pathTree true).entries := by
        rw [htree]
        exact List.mem_cons_self
      have hval := (Tries.mem_entries (t.distinct_pathTree true)).mp hfirst
      obtain ⟨⟨r, hr, hroot, -, hwords⟩, -⟩ := (value_tree hids hpaths true (List.cons_ne_nil _ _)).mp hval
      exact ⟨r, hr, hroot, List.nil_prefix, hwords⟩
  · rintro ⟨r, hr, hroot, -, hwords⟩ hnil
    obtain ⟨name, names, hsplit⟩ := List.exists_cons_of_ne_nil hwords
    have hpass : Passes true [name] r.path := ⟨hroot, by rw [hsplit]; exact ⟨names, rfl⟩, hwords⟩
    have hval := (value_tree hids hpaths true (List.cons_ne_nil name [])).mpr ⟨⟨r, hr, hpass⟩, rfl⟩
    rw [hnil, Tries.value_nil] at hval
    cases hval

theorem mem_places {absolute : Bool} {parts : List Str} {count : Nat} : (absolute, parts, count) ∈ t.places ↔
    (absolute = true ∨ parts ≠ []) ∧ (∃ r ∈ t.joined, Passes absolute parts r.path) ∧
      count = (t.passing absolute parts).length := by
  have hentry : ∀ b, (parts, count) ∈ (t.pathTree b).entries ↔ Tries.value parts (t.pathTree b) = some count := fun b =>
    Tries.mem_entries (t.distinct_pathTree b)
  have hbelow : ∀ b, (absolute, parts, count) ∈ (t.pathTree b).entries.map (fun e => (b, e.1, e.2)) ↔
      absolute = b ∧ Tries.value parts (t.pathTree b) = some count := by
    intro b
    rw [← hentry, List.mem_map]
    constructor
    · rintro ⟨e, he, heq⟩
      obtain ⟨rfl, rfl⟩ : b = absolute ∧ e = (parts, count) := by simpa using heq
      exact ⟨rfl, he⟩
    · rintro ⟨rfl, he⟩
      exact ⟨_, he, rfl⟩
  have hroot : (absolute, parts, count) ∈ (if t.pathTree true ≠ .nil then
      [(true, ([] : List Str), Tries.total (t.pathTree true))] else []) ↔
      (absolute = true ∧ parts = []) ∧ (∃ r ∈ t.joined, Passes true [] r.path) ∧
        count = (t.passing true []).length := by
    rw [← pathTree_ne_nil hids hpaths, ← total_tree hids hpaths]
    split
    · rename_i hne
      rw [List.mem_singleton, Prod.mk.injEq, Prod.mk.injEq, and_iff_right hne, and_assoc]
    · rename_i hnil
      exact iff_of_false List.not_mem_nil fun h => hnil h.2.1
  rw [places, List.mem_append, List.mem_append, hroot, hbelow, hbelow]
  by_cases hne : parts = []
  · subst hne
    rw [Tries.value, Tries.value]
    cases absolute <;> simp
  · rw [value_tree hids hpaths true hne, value_tree hids hpaths false hne]
    cases absolute <;> simp [hne]

end Places

theorem fullPath_drawnRows (t : Tables) :
    (t.drawnRows.map (·.fullPath)).Perm (t.places.map fun x => pathText x.1 x.2.1) := by
  have hperm := (shown_places t).map Prod.fst
  rwa [List.map_map, List.map_map] at hperm

theorem nodup_places (t : Tables) : (t.places.map fun x => (x.1, x.2.1)).Nodup := by
  have hside : ∀ b, ((t.pathTree b).entries.map fun e => (b, e.1)).Nodup := by
    intro b
    have hnodup := List.Nodup.map (fun _ _ h => (Prod.mk.inj h).2 : Function.Injective (Prod.mk b))
      (Tries.nodup_entries (t.distinct_pathTree b))
    rwa [List.map_map] at hnodup
  have hnonempty : ∀ b, ∀ e ∈ (t.pathTree b).entries, e.1 ≠ [] := by
    rintro b ⟨parts, count⟩ he rfl
    cases (Tries.mem_entries (t.distinct_pathTree b)).mp he
  simp only [places, List.map_append, List.map_map, Function.comp_def]
  rw [List.nodup_append, List.nodup_append]
  refine ⟨?_, ⟨hside true, hside false, ?_⟩, ?_⟩
  · split
    · exact List.nodup_singleton _
    · exact List.nodup_nil
  · intro a ha b hb
    obtain ⟨e, -, rfl⟩ := List.mem_map.mp ha
    obtain ⟨e', -, rfl⟩ := List.mem_map.mp hb
    simp
  · intro a ha b hb
    have hfirst : a = (true, []) := by
      split at ha
      · exact List.mem_singleton.mp ha
      · cases ha
    rintro rfl
    rw [hfirst] at hb
    rcases List.mem_append.mp hb with hb | hb
    · obtain ⟨e, he, heq⟩ := List.mem_map.mp hb
      exact hnonempty true e he (Prod.mk.inj heq).2
    · obtain ⟨e, he, heq⟩ := List.mem_map.mp hb
      exact absurd (Prod.mk.inj heq).1 (by simp)

end Tables
end Bdtrace
