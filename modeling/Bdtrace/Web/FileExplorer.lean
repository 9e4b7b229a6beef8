import Bdtrace.Web.FileTreeCounts

/-! What a click on a row of the drawn tree shows. -/
namespace Bdtrace
open Words (words)

/-- What a click on a row shows beside the tree. -/
inductive FileDetail where
  | file (rows : List AccessorJson)
  | below (rows : List PrefixRowJson)
  deriving DecidableEq, Repr

namespace Tables

/-- `showFileDetail`, with the rows as they are served. -/
def showFileDetail (t : Tables) (path : Str) : FileDetail :=
  let data := t.handleFilesByPath (getQueryParam ("path=".toList ++ encodeURIComponent.encode path) "path".toList)
  if data ≠ [] then .file data
  else .below
    (t.handleFilesByPrefix (getQueryParam ("prefix=".toList ++ encodeURIComponent.encode path) "prefix".toList))

private theorem handleFiles_nil (t : Tables) : (t.handleFiles []).files = t.getFileStatsGrouped := by
  have hlimit : getQueryParam [] "limit".toList = [] := by decide
  simp only [handleFiles, hlimit]
  rfl

/-! ### A click on a row -/

/-- The rows stand for the paths that lead to an accessed file, each once and with the accesses there and below. A click
shows who accessed the file, and on a path that is no accessed file what was accessed below it. -/
structure ExplorerRows (t : Tables) (rows : List FileNode) : Prop where
  once : (rows.map (·.fullPath)).Nodup
  shown : ∀ absolute parts, (∀ name ∈ parts, IsName name) → absolute = true ∨ parts ≠ [] →
    (pathText absolute parts ∈ rows.map (·.fullPath) ↔ ∃ r ∈ t.joined, Passes absolute parts r.path)
  counted : ∀ row ∈ rows, ∀ absolute parts, (∀ name ∈ parts, IsName name) → absolute = true ∨ parts ≠ [] →
    row.fullPath = pathText absolute parts →
      row.count = (t.passing absolute parts).length ∧ row.depth + 1 = (if absolute then 1 else 0) + parts.length
  file : ∀ row ∈ rows, (∃ r ∈ t.joined, r.path = row.fullPath) →
    ∃ listed, t.showFileDetail row.fullPath = .file listed ∧ AccessorRows t row.fullPath listed
  below : ∀ row ∈ rows, (∀ r ∈ t.joined, r.path ≠ row.fullPath) →
    ∃ listed, t.showFileDetail row.fullPath = .below listed ∧
    ∀ r ∈ t.joined, r.path = pathText (rooted r.path) (words '/' r.path) →
      ((∃ l ∈ listed, l.filename = r.path ∧ l.pid = r.row.pid) ↔
        Passes (rooted row.fullPath) (words '/' row.fullPath) r.path)

/-- The page fails on some paths with the names of inherited properties. Without such names it shows the tree. -/
structure FileExplorer (t : Tables) : Prop where
  fails : t.renderFiles = none ↔ ∃ r ∈ t.joined, BreaksTree r.path
  rows : (∀ r ∈ t.joined, ∀ name ∈ words '/' r.path, name ∉ inherited) → ∃ rows, t.renderFiles = some rows ∧
    ExplorerRows t rows

private theorem showFileDetail_eq (t : Tables) {path : Str} (hbytes : ∀ c ∈ path, c.toNat < 256) :
    t.showFileDetail path =
    if t.handleFilesByPath path ≠ [] then .file (t.handleFilesByPath path)
    else .below (t.handleFilesByPrefix path) := by
  have hpath : getQueryParam ("path=".toList ++ encodeURIComponent.encode path) "path".toList = path := by
    have h := getQueryParam_encode encodeURIComponent "path".toList path hbytes none
    rwa [Option.elim_none, List.append_nil] at h
  have hprefix : getQueryParam ("prefix=".toList ++ encodeURIComponent.encode path) "prefix".toList = path := by
    have h := getQueryParam_encode encodeURIComponent "prefix".toList path hbytes none
    rwa [Option.elim_none, List.append_nil] at h
  rw [showFileDetail, hpath, hprefix]

section Clicks
variable {t : Tables} (hids : (t.files.map (·.id)).Nodup) (hpaths : (t.files.map (·.path)).Nodup)
include hids hpaths

/-- What a row says of the paths that pass it. -/
private theorem mem_drawnRows {row : FileNode} (hrow : row ∈ t.drawnRows) :
    ∃ absolute parts, (absolute = true ∨ parts ≠ []) ∧
    (∃ r ∈ t.joined, Passes absolute parts r.path) ∧ row.fullPath = pathText absolute parts ∧
      row.count = (t.passing absolute parts).length ∧ row.depth + 1 = (if absolute then 1 else 0) + parts.length := by
  have hshown := (shown_places t).mem_iff.mp (List.mem_map_of_mem hrow)
  obtain ⟨⟨absolute, parts, count⟩, hplace, heq⟩ := List.mem_map.mp hshown
  obtain ⟨hne, hpass, hcount⟩ := (mem_places hids hpaths).mp hplace
  obtain ⟨hpath, hnum, hdepth⟩ : pathText absolute parts = row.fullPath ∧ count = row.count ∧
      (if absolute then 1 else 0) + parts.length = row.depth + 1 := by
    simpa only [placeText, FileNode.shown, Prod.mk.injEq] using heq
  exact ⟨absolute, parts, hne, hpass, hpath.symm, hnum.symm.trans hcount, hdepth.symm⟩

private theorem nodup_fullPath : (t.drawnRows.map (·.fullPath)).Nodup := by
  have hvalid : ∀ x ∈ t.places, (∀ name ∈ x.2.1, IsName name) ∧ (x.1 = true ∨ x.2.1 ≠ []) := by
    intro x hx
    obtain ⟨hne, ⟨r, -, hpass⟩, -⟩ := (mem_places hids hpaths).mp hx
    exact ⟨hpass.names, hne⟩
  have hmap : (t.places.map fun x => pathText x.1 x.2.1) = (t.places.map fun x => (x.1, x.2.1)).map fun k =>
      pathText k.1 k.2 := by
    rw [List.map_map]
    rfl
  rw [(fullPath_drawnRows t).nodup_iff, hmap]
  refine (nodup_places t).map_on fun k hk k' hk' heq => ?_
  obtain ⟨x, hx, rfl⟩ := List.mem_map.mp hk
  obtain ⟨x', hx', rfl⟩ := List.mem_map.mp hk'
  obtain ⟨hnames, hne⟩ := hvalid x hx
  obtain ⟨hnames', hne'⟩ := hvalid x' hx'
  obtain ⟨habs, hparts⟩ := pathText_injective hnames hnames' hne hne' heq
  exact Prod.ext habs hparts

private theorem mem_fullPath {absolute : Bool} {parts : List Str} (hnames : ∀ name ∈ parts, IsName name)
    (hne : absolute = true ∨ parts ≠ []) :
    pathText absolute parts ∈ t.drawnRows.map (·.fullPath) ↔ ∃ r ∈ t.joined, Passes absolute parts r.path := by
  rw [(fullPath_drawnRows t).mem_iff, List.mem_map]
  constructor
  · rintro ⟨x, hx, heq⟩
    obtain ⟨hne', ⟨r, hr, hpass⟩, -⟩ := (mem_places hids hpaths).mp hx
    obtain ⟨habs, hparts⟩ := pathText_injective hpass.names hnames hne' hne heq
    exact ⟨r, hr, habs ▸ hparts ▸ hpass⟩
  · intro hpass
    exact ⟨(absolute, parts, _), (mem_places hids hpaths).mpr ⟨hne, hpass, rfl⟩, rfl⟩

variable (hvalid : ∀ f ∈ t.files, Utf8.Valid f.path)

include hvalid in
/-- The browser reads the names as they are recorded. -/
private theorem decoded_stats :
    (t.handleFiles []).files.map (fun file => { file with filename := Utf8.decoded file.filename }) =
    t.getFileStatsGrouped := by
  rw [handleFiles_nil]
  refine (List.map_congr_left fun s hs => ?_).trans (List.map_id _)
  have hs' : Utf8.Valid s.filename := by
    by_contra hbad
    obtain ⟨r, hr, hnot⟩ := (exists_stats hids hpaths (p := fun path => ¬ Utf8.Valid path)).mp ⟨s, hs, hbad⟩
    exact hnot (hvalid _ (mem_joined.mp hr).2)
  rw [hs'.decoded_eq]
  rfl

include hvalid in
private theorem renderFiles_eq_none : t.renderFiles = none ↔ ∃ r ∈ t.joined, BreaksTree r.path := by
  rw [renderFiles, decoded_stats hids hpaths hvalid, Option.map_eq_none_iff, addFiles_eq_none, exists_stats hids hpaths]

include hvalid in
private theorem renderFiles_eq (h : ∀ r ∈ t.joined, ∀ name ∈ words '/' r.path, name ∉ inherited) :
    t.renderFiles = some t.drawnRows := by
  have hstats : ∀ s ∈ t.getFileStatsGrouped, ∀ name ∈ words '/' s.filename, name ∉ inherited := by
    intro s hs name hname hin
    obtain ⟨r, hr, name', hname', hin'⟩ :=
      (exists_stats hids hpaths (p := fun path => ∃ name ∈ words '/' path, name ∈ inherited)).mp
      ⟨s, hs, name, hname, hin⟩
    exact h r hr name' hname' hin'
  rw [renderFiles, decoded_stats hids hpaths hvalid, addFiles_eq hstats]
  rfl

variable (hnul : ∀ f ∈ t.files, '\x00' ∉ f.path) (hk : t.pids.Nodup)
include hk

private theorem byPath_ne_nil {path : Str} (hpath : '\x00' ∉ path) :
    t.handleFilesByPath path ≠ [] ↔ ∃ r ∈ t.joined, r.path = path := by
  have hrows := accessorRows_byPath hids hpaths hk hpath
  constructor
  · intro hne
    obtain ⟨row, rest, hsplit⟩ := List.exists_cons_of_ne_nil hne
    obtain ⟨r, hr, hrpath, -⟩ := (hrows.pids row.pid).mp (by rw [hsplit]; exact List.mem_cons_self)
    exact ⟨r, hr, hrpath⟩
  · rintro ⟨r, hr, hrpath⟩ hnil
    have hin := (hrows.pids r.row.pid).mpr ⟨r, hr, hrpath, rfl⟩
    rw [hnil] at hin
    cases hin

include hnul

private theorem mem_byPrefix {pfx : Str} (hpfx : pfx ≠ []) {r : JoinedAccess} (hr : r ∈ t.joined) :
    (∃ l ∈ t.handleFilesByPrefix pfx, l.filename = r.path ∧ l.pid = r.row.pid) ↔ completePrefix pfx <+: r.path := by
  have hpath := hnul _ (mem_joined.mp hr).2
  have hpid := ((accessorRows_byPath hids hpaths hk hpath).pids r.row.pid).mpr ⟨r, hr, rfl, rfl⟩
  have hmap : (∃ l ∈ t.handleFilesByPrefix pfx, l.filename = r.path ∧ l.pid = r.row.pid) ↔
      r.row.pid ∈ (((t.handleFilesByPrefix pfx).filter fun row => row.filename = r.path).map rowAccessor).map
        (·.pid) := by
    simp only [List.map_map, List.mem_map, List.mem_filter, decide_eq_true_eq, and_assoc]
    rfl
  rw [hmap, byPrefix_filter hids hpaths hnul hk hpfx hpath]
  split
  · rename_i hpre
    exact iff_of_true hpid hpre
  · rename_i hpre
    exact iff_of_false List.not_mem_nil hpre

/-- Below a path that is no file itself: what passes its row. -/
private theorem mem_byPrefix_place {absolute : Bool} {parts : List Str} (hnames : ∀ name ∈ parts, IsName name)
    (hne : absolute = true ∨ parts ≠ []) {r : JoinedAccess} (hr : r ∈ t.joined)
    (hown : r.path ≠ pathText absolute parts)
    (hspelled : r.path = pathText (rooted r.path) (words '/' r.path)) :
    (∃ l ∈ t.handleFilesByPrefix (pathText absolute parts), l.filename = r.path ∧ l.pid = r.row.pid) ↔
      Passes absolute parts r.path := by
  have hwords : ∀ name ∈ words '/' r.path, IsName name := fun _ hname => isName_of_mem hname
  have hpfx : pathText absolute parts ≠ [] := by
    rcases hne with rfl | hparts
    · exact List.cons_ne_nil _ _
    · obtain ⟨c, text, htext, -⟩ := intercalate_names hnames hparts
      simp [pathText, htext]
  have hbelow := @completePrefix_pathText absolute parts (rooted r.path) _ hnames hwords hne
  rw [← hspelled] at hbelow
  rw [mem_byPrefix hids hpaths hnul hk hpfx hr, hbelow, Passes]
  constructor
  · rintro ⟨habs, hpre, hshort⟩
    refine ⟨habs.symm, hpre, fun hnil => hown ?_⟩
    rw [hnil, List.prefix_nil] at hpre
    rw [hspelled, hnil, hpre, habs]
  · rintro ⟨habs, hpre, -⟩
    refine ⟨habs.symm, hpre, .inr fun hsame => hown ?_⟩
    rw [hspelled, habs, hsame]

include hvalid in
private theorem explorer_rows : ExplorerRows t t.drawnRows := by
  have hchars : ∀ row ∈ t.drawnRows, '\x00' ∉ row.fullPath ∧ ∀ c ∈ row.fullPath, c.toNat < 256 := by
    intro row hrow
    obtain ⟨absolute, parts, -, ⟨r, hr, hpass⟩, hpath, -⟩ := mem_drawnRows hids hpaths hrow
    rw [hpath]
    constructor
    · intro hin
      rcases hpass.mem hin with hslash | hin
      · exact absurd hslash (by decide)
      · exact hnul _ (mem_joined.mp hr).2 hin
    · intro c hc
      rcases hpass.mem hc with rfl | hin
      · decide
      · exact (hvalid _ (mem_joined.mp hr).2).toNat_lt c hin
  refine ⟨nodup_fullPath hids hpaths, fun absolute parts hnames hne => mem_fullPath hids hpaths hnames hne,
    fun row hrow absolute parts hnames hne heq => ?_, fun row hrow hfile => ?_, fun row hrow hnone => ?_⟩
  · obtain ⟨absolute', parts', hne', ⟨r, -, hpass⟩, hpath, hcount, hdepth⟩ := mem_drawnRows hids hpaths hrow
    obtain ⟨rfl, rfl⟩ := pathText_injective hpass.names hnames hne' hne (hpath.symm.trans heq)
    exact ⟨hcount, hdepth⟩
  · obtain ⟨hrownul, hrowbytes⟩ := hchars row hrow
    refine ⟨_, ?_, accessorRows_byPath hids hpaths hk hrownul⟩
    rw [showFileDetail_eq t hrowbytes, if_pos ((byPath_ne_nil hids hpaths hk hrownul).mpr hfile)]
  · obtain ⟨hrownul, hrowbytes⟩ := hchars row hrow
    obtain ⟨absolute, parts, hne, ⟨_, -, hpass⟩, hpath, -⟩ := mem_drawnRows hids hpaths hrow
    refine ⟨t.handleFilesByPrefix row.fullPath, ?_, fun r hr hspelled => ?_⟩
    · rw [showFileDetail_eq t hrowbytes, if_neg]
      intro hfile
      obtain ⟨r, hr, hrpath⟩ := (byPath_ne_nil hids hpaths hk hrownul).mp hfile
      exact hnone r hr hrpath
    · have hown := hnone r hr
      rw [hpath] at hown ⊢
      rw [rooted_pathText hpass.names hne, words_pathText hpass.names]
      exact mem_byPrefix_place hids hpaths hnul hk hpass.names hne hr hown hspelled

end Clicks

theorem file_explorer (t : Tables) (hids : (t.files.map (·.id)).Nodup) (hpaths : (t.files.map (·.path)).Nodup)
    (hnul : ∀ f ∈ t.files, '\x00' ∉ f.path) (hk : t.pids.Nodup)
    (hvalid : ∀ f ∈ t.files, Utf8.Valid f.path) : FileExplorer t where
  fails := renderFiles_eq_none hids hpaths hvalid
  rows h := ⟨t.drawnRows, renderFiles_eq hids hpaths hvalid h, explorer_rows hids hpaths hvalid hnul hk⟩

theorem file_explorer_sharedHeader : FileExplorer sharedHeader :=
  have hascii : ∀ f ∈ sharedHeader.files, ∀ c ∈ f.path, c.toNat < 0x80 := by simp [sharedHeader]
  file_explorer sharedHeader (by decide) (by decide) (by decide) (by decide) fun f hf =>
    Utf8.valid_of_ascii (hascii f hf)

example : (sharedHeader.renderFiles.getD []).map (fun row => (row.fullPath, row.count, row.depth)) =
    [("/".toList, 4, 0), ("/src".toList, 4, 1), ("/src/a.h".toList, 3, 2), ("/src/b.c".toList, 1, 2)] := by
      decide +kernel

end Tables
end Bdtrace
