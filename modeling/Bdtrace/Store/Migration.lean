import Bdtrace.Store.TraceFile
import Mathlib.Data.List.Dedup

/-! Interning the file names loses no row, and a migration that fails changes nothing. -/
namespace Bdtrace
open Scripts

namespace TraceFile

/-- The keys that SQLite enforces on `files`. -/
structure FilesKeyed (fs : List FileRow) : Prop where
  ids : (fs.map (·.id)).Nodup
  paths : (fs.map (·.path)).Nodup

/-- Keys are unique, and a row in the new layout names a file. -/
structure Wellformed (s : TraceFile) : Prop where
  files : FilesKeyed (s.files.getD [])
  ids : ∀ k b rows, s.access k = some (.named b rows) → (rows.map (·.id)).Nodup
  references : ∀ k rows, s.access k = some (.interned rows) → ∀ a ∈ rows, a.fileId ∈ (s.files.getD []).map (·.id)

private theorem internName_spec {fs : List FileRow} (h : FilesKeyed fs) (path : Str) :
    FilesKeyed (internName fs path) ∧ fs <+: internName fs path ∧ path ∈ (internName fs path).map (·.path) := by
  rw [internName]
  split
  · rename_i hin
    exact ⟨h, List.prefix_refl fs, hin⟩
  · rename_i hout
    refine ⟨⟨?_, ?_⟩, List.prefix_append _ _, by simp⟩
    · rw [List.map_append, List.nodup_append']
      refine ⟨h.ids, List.nodup_singleton _, ?_⟩
      simpa using Tables.nextRowid_not_mem (fs.map (·.id))
    · rw [List.map_append, List.nodup_append']
      refine ⟨h.paths, List.nodup_singleton _, ?_⟩
      simpa using hout

private theorem foldl_internName {fs : List FileRow} (h : FilesKeyed fs) (names : List Str) :
    FilesKeyed (names.foldl internName fs) ∧ fs <+: names.foldl internName fs ∧
      ∀ n ∈ names, n ∈ (names.foldl internName fs).map (·.path) := by
  induction names generalizing fs with
  | nil => exact ⟨h, List.prefix_refl fs, fun _ hn => (by cases hn)⟩
  | cons n names ih =>
    obtain ⟨hkeyed, hpre, hin⟩ := internName_spec h n
    obtain ⟨hkeyed', hpre', hall⟩ := ih hkeyed
    refine ⟨hkeyed', hpre.trans hpre', fun m hm => ?_⟩
    rcases List.mem_cons.mp hm with rfl | hm
    · exact (hpre'.map _).subset hin
    · exact hall m hm

/-- Joined on the name and joined back on the id, every row comes back. -/
private theorem namedBy_joinNames {fs : List FileRow} (h : FilesKeyed fs) {rows : List NamedAccess}
    (hall : ∀ a ∈ rows, a.filename ∈ fs.map (·.path)) : namedBy fs (joinNames fs rows) = rows := by
  rw [namedBy, joinNames, List.flatMap_assoc]
  induction rows with
  | nil => rfl
  | cons a rows ih =>
    obtain ⟨f, hf, hpath⟩ := List.mem_map.mp (hall a List.mem_cons_self)
    have hname : fs.filter (fun g => g.path = a.filename) = [f] := hpath ▸ filter_key (·.path) h.paths hf
    have hid : fs.filter (fun g => g.id = f.id) = [f] := filter_key (·.id) h.ids hf
    rw [List.flatMap_cons, ih fun b hb => hall b (List.mem_cons_of_mem _ hb), hname]
    simp [hid, hpath]

/-- More files leave the joined rows alone. -/
private theorem namedBy_prefix {fs gs : List FileRow} (hg : FilesKeyed gs) (hpre : fs <+: gs)
    {rows : List InternedAccess}
    (hrefs : ∀ a ∈ rows, a.fileId ∈ fs.map (·.id)) : namedBy gs rows = namedBy fs rows := by
  apply List.flatMap_congr
  intro a ha
  obtain ⟨f, hf, hid⟩ := List.mem_map.mp (hrefs a ha)
  have hfs : (fs.map (·.id)).Nodup := hg.ids.sublist (hpre.map _).sublist
  rw [← hid, filter_key (·.id) hfs hf, filter_key (·.id) hg.ids (hpre.subset hf)]

private theorem mem_joinNames {fs : List FileRow} {rows : List NamedAccess} {a : InternedAccess}
    (h : a ∈ joinNames fs rows) :
    a.fileId ∈ fs.map (·.id) := by
  obtain ⟨b, -, hb⟩ := List.mem_flatMap.mp h
  obtain ⟨f, hf, rfl⟩ := List.mem_map.mp hb
  exact List.mem_map_of_mem (List.mem_of_mem_filter hf)

/-- What the five statements of one table do together. -/
private theorem applyAll_convert {k : AccessKind} {s s' : TraceFile} {fs : List FileRow} (hfs : s.files = some fs)
    (h : applyAll (convert k) s = some s') :
    ∃ rows, s.access k = some (.named true rows) ∧
      s' = { s with
        files := some ((rows.map (·.filename)).dedup.foldl internName fs)
        access := Function.update s.access k
          (some (.interned (joinNames ((rows.map (·.filename)).dedup.foldl internName fs) rows)))
        scratch := Function.update s.scratch k none } := by
  obtain ⟨s₁, h₁, s₂, h₂, s₃, h₃, s₄, h₄, h₅⟩ : ∃ s₁, internNames k s = some s₁ ∧ ∃ s₂, createScratch k s₁ = some s₂ ∧
      ∃ s₃, copyRows k s₂ = some s₃ ∧ ∃ s₄, dropTable k s₃ = some s₄ ∧ renameScratch k s₄ = some s' := by
    simpa [applyAll, convert, Option.bind_eq_some_iff] using h
  cases ha : s.access k with
  | none => simp [internNames, hfs, ha] at h₁
  | some t =>
    cases t with
    | interned rows => simp [internNames, hfs, ha] at h₁
    | named b rows =>
      simp only [internNames, hfs, ha, Option.some.injEq] at h₁
      subst h₁
      cases hs : s.scratch k with
      | some old => simp [createScratch, hs] at h₂
      | none =>
        simp only [createScratch, hs, Option.some.injEq] at h₂
        subst h₂
        cases b with
        | false => simp [copyRows, ha] at h₃
        | true =>
          simp only [copyRows, ha, Function.update_self, List.nil_append, Option.ite_none_right_eq_some,
            Option.some.injEq] at h₃
          obtain ⟨-, rfl⟩ := h₃
          simp only [dropTable, ha, Option.some.injEq] at h₄
          subst h₄
          simp only [renameScratch, Function.update_self, Option.some.injEq, Function.update_idem] at h₅
          exact ⟨rows, rfl, h₅.symm⟩

private theorem joinNames_ids {fs : List FileRow} (h : FilesKeyed fs) {rows : List NamedAccess}
    (hall : ∀ a ∈ rows, a.filename ∈ fs.map (·.path)) : (joinNames fs rows).map (·.id) = rows.map (·.id) := by
  induction rows with
  | nil => rfl
  | cons a rows ih =>
    obtain ⟨f, hf, hpath⟩ := List.mem_map.mp (hall a List.mem_cons_self)
    have hname : fs.filter (fun g => g.path = a.filename) = [f] := hpath ▸ filter_key (·.path) h.paths hf
    have hrest := ih fun b hb => hall b (List.mem_cons_of_mem _ hb)
    rw [joinNames] at hrest ⊢
    rw [List.flatMap_cons, List.map_append, hrest, hname]
    rfl

/-- Without leftovers of an earlier attempt no statement is refused. -/
theorem convert_succeeds {k : AccessKind} {s : TraceFile} (hw : s.Wellformed) {fs : List FileRow}
    (hfs : s.files = some fs)
    {rows : List NamedAccess} (hrows : s.access k = some (.named true rows)) (hscratch : s.scratch k = none) :
    ∃ s', applyAll (convert k) s = some s' := by
  have hkeyed : FilesKeyed fs := by simpa [hfs] using hw.files
  obtain ⟨hgs, -, hin⟩ := foldl_internName hkeyed (rows.map (·.filename)).dedup
  have hids := joinNames_ids hgs fun a ha => hin _ (List.mem_dedup.mpr (List.mem_map_of_mem ha))
  have hnodup : ((joinNames ((rows.map (·.filename)).dedup.foldl internName fs) rows).map (·.id)).Nodup :=
    hids ▸ hw.ids k true rows hrows
  simp [applyAll, convert, internNames, createScratch, copyRows, dropTable, renameScratch, hfs, hrows, hscratch, hnodup]

/-- The migration has kept what `s` says: the same named rows and processes, in keyed tables. -/
structure SameRows (s s' : TraceFile) : Prop where
  wellformed : s'.Wellformed
  named : ∀ k, s'.named k = s.named k
  processes : s'.processes = s.processes
  files : ∀ f ∈ s.files.getD [], f ∈ s'.files.getD []
  scratch : ∀ k, s.scratch k = none → s'.scratch k = none

theorem SameRows.trans {s t u : TraceFile} (h : SameRows s t) (h' : SameRows t u) : SameRows s u :=
  ⟨h'.wellformed, fun k => (h'.named k).trans (h.named k), h'.processes.trans h.processes,
    fun f hf => h'.files f (h.files f hf), fun k hk => h'.scratch k (h.scratch k hk)⟩

theorem sameRows_convert {k : AccessKind} {s s' : TraceFile} (hw : s.Wellformed) {fs : List FileRow}
    (hfs : s.files = some fs) (h : applyAll (convert k) s = some s') :
    SameRows s s' ∧ (∃ gs, s'.files = some gs) ∧ (∃ rows, s'.access k = some (.interned rows)) ∧
      (∀ j, j ≠ k → s'.access j = s.access j) ∧
      ∀ a ∈ s.named k, a.filename ∈ (s'.files.getD []).map (·.path) := by
  obtain ⟨rows, hrows, rfl⟩ := applyAll_convert hfs h
  have hkeyed : FilesKeyed fs := by simpa [hfs] using hw.files
  obtain ⟨hgs, hpre, hin⟩ := foldl_internName hkeyed (rows.map (·.filename)).dedup
  generalize (rows.map (·.filename)).dedup.foldl internName fs = gs at hgs hpre hin
  have hnames : ∀ a ∈ rows, a.filename ∈ gs.map (·.path) := fun a ha =>
    hin _ (List.mem_dedup.mpr (List.mem_map_of_mem ha))
  have hother : ∀ (j : AccessKind) rows', j ≠ k → s.access j = some (.interned rows') →
      ∀ a ∈ rows', a.fileId ∈ fs.map (·.id) := by
    intro j rows' _ hj
    simpa [hfs] using hw.references j rows' hj
  refine ⟨⟨⟨hgs, fun j b rows' hj => ?_, fun j rows' hj => ?_⟩, fun j => ?_, rfl, ?_, fun j hj => ?_⟩, ⟨gs, rfl⟩, ?_,
    fun j hj => ?_, ?_⟩
  · by_cases hjk : j = k
    · subst hjk
      simp at hj
    · simp only [Function.update_of_ne hjk] at hj
      exact hw.ids j b rows' hj
  · by_cases hjk : j = k
    · subst hjk
      simp only [Function.update_self, Option.some.injEq, AccessTable.interned.injEq] at hj
      subst hj
      exact fun a ha => mem_joinNames ha
    · simp only [Function.update_of_ne hjk] at hj
      exact fun a ha => (hpre.map _).subset (hother j rows' hjk hj a ha)
  · by_cases hjk : j = k
    · subst hjk
      simp only [TraceFile.named, Function.update_self, Option.getD_some, hrows, namedBy_joinNames hgs hnames]
    · simp only [TraceFile.named, Function.update_of_ne hjk, Option.getD_some, hfs]
      split <;> try rfl
      rename_i rows' hj
      exact namedBy_prefix hgs hpre (hother j rows' hjk hj)
  · simpa [hfs] using fun f hf => hpre.subset hf
  · by_cases hjk : j = k
    · subst hjk
      exact Function.update_self ..
    · rw [← hj]
      exact Function.update_of_ne hjk _ _
  · exact ⟨_, Function.update_self ..⟩
  · exact Function.update_of_ne hj _ _
  · simp only [TraceFile.named, hrows, Option.getD_some]
    exact hnames

private theorem applyAll_append (fs gs : List (TraceFile → Option TraceFile)) (s : TraceFile) :
    applyAll (fs ++ gs) s = (applyAll fs s).bind (applyAll gs) := by
  simp [applyAll, List.foldlM_append]
  rfl

/-- A table is converted if it has the old layout, and left alone otherwise. -/
private theorem sameRows_convert_if {k : AccessKind} {s s' : TraceFile} (hw : s.Wellformed) {fs : List FileRow}
    (hfs : s.files = some fs) (h : applyAll (if s.namedLayout k then convert k else []) s = some s') :
    SameRows s s' ∧ (∃ gs, s'.files = some gs) ∧ s'.namedLayout k = false ∧ (∀ j, j ≠ k → s'.access j = s.access j) ∧
      (s.namedLayout k = true → (∃ rows, s'.access k = some (.interned rows)) ∧
        ∀ a ∈ s.named k, a.filename ∈ (s'.files.getD []).map (·.path)) := by
  split at h
  · obtain ⟨hsame, hfiles, ⟨rows, hrows⟩, hother, hnames⟩ := sameRows_convert hw hfs h
    exact ⟨hsame, hfiles, by simp [namedLayout, hrows], hother, fun _ => ⟨⟨rows, hrows⟩, hnames⟩⟩
  · rename_i hnot
    obtain rfl := Option.some.inj h
    have hkept : SameRows s s := ⟨hw, fun _ => rfl, rfl, fun _ hf => hf, fun _ hk => hk⟩
    exact ⟨hkept, ⟨fs, hfs⟩, by simpa using hnot, fun _ _ => rfl, fun hlay => absurd hlay hnot⟩

theorem sameRows_conversion {s s' : TraceFile} (hw : s.Wellformed) (h : applyAll s.conversion s = some s') :
    SameRows s s' ∧ (∃ gs, s'.files = some gs) ∧ (∀ k, s'.namedLayout k = false) ∧
      ∀ k, s.namedLayout k = true → (∃ rows, s'.access k = some (.interned rows)) ∧
        ∀ a ∈ s.named k, a.filename ∈ (s'.files.getD []).map (·.path) := by
  rw [conversion, List.cons_append, ← List.singleton_append, applyAll_append] at h
  obtain ⟨s₁, h₁, h⟩ := Option.bind_eq_some_iff.mp h
  rw [applyAll_append] at h
  obtain ⟨s₂, h₂, h₃⟩ := Option.bind_eq_some_iff.mp h
  have h₁ : s₁ = { s with files := some (s.files.getD []) } := by simpa [applyAll, createFiles, eq_comm] using h₁
  subst h₁
  have hsame₁ : SameRows s { s with files := some (s.files.getD []) } :=
    ⟨⟨hw.files, hw.ids, hw.references⟩, fun _ => rfl, rfl, fun _ hf => hf, fun _ hk => hk⟩
  obtain ⟨hsame₂, ⟨gs, hgs⟩, hlay₂, hother₂, hnames₂⟩ := sameRows_convert_if hsame₁.wellformed rfl h₂
  have hlayout : s.namedLayout .failed = s₂.namedLayout .failed := by
    simp only [namedLayout, hother₂ .failed (by decide)]
  rw [hlayout] at h₃
  obtain ⟨hsame₃, hfiles₃, hlay₃, hother₃, hnames₃⟩ := sameRows_convert_if hsame₂.wellformed hgs h₃
  refine ⟨(hsame₁.trans hsame₂).trans hsame₃, hfiles₃, fun k => ?_, fun k hk => ?_⟩
  · cases k with
    | failed => exact hlay₃
    | file =>
      have heq : s'.namedLayout .file = s₂.namedLayout .file := by simp only [namedLayout, hother₃ .file (by decide)]
      rw [heq, hlay₂]
  · cases k with
    | failed =>
      obtain ⟨hrows, hnames⟩ := hnames₃ (hlayout ▸ hk)
      rw [hsame₂.named] at hnames
      exact ⟨hrows, hnames⟩
    | file =>
      obtain ⟨hrows, hnames⟩ := hnames₂ hk
      rw [hother₃ .file (by decide)]
      refine ⟨hrows, fun a ha => ?_⟩
      obtain ⟨f, hf, hpath⟩ := List.mem_map.mp (hnames a ha)
      exact List.mem_map.mpr ⟨f, hsame₃.files f hf, hpath⟩

theorem migrateToInterned_converted {s : TraceFile} (h : ∀ k, s.namedLayout k = false) (r : Faults) :
    migrateToInterned.run r (opened s) = (true, opened s) := by
  simp [migrateToInterned, Script.run, opened, h]

/-- A migration that succeeds keeps every row with its name, stores each name once and has nothing left
to do; one that fails before its commit changes nothing. -/
theorem migration_lossless (s : TraceFile) (hw : s.Wellformed) (r : Faults) (ok : Bool) (c : Conn TraceFile)
    (h : migrateToInterned.run r (opened s) = (ok, c)) :
    (ok = true →
      (∀ k, c.current.named k = s.named k) ∧
      ((c.current.files.getD []).map (·.path)).Nodup ∧
      (∀ k, s.namedLayout k = true → (∃ rows, c.current.access k = some (.interned rows)) ∧
        ∀ a ∈ s.named k, a.filename ∈ (c.current.files.getD []).map (·.path)) ∧
      ∀ r', migrateToInterned.run r' c = (true, c)) ∧
    (ok = false → r.commit ≠ .failed → c = opened s) := by
  by_cases hold : ∀ k, s.namedLayout k = false
  · obtain ⟨rfl, rfl⟩ := Prod.mk.inj ((migrateToInterned_converted hold r).symm.trans h)
    refine ⟨fun _ => ⟨fun _ => rfl, hw.files.paths, fun k hk => ?_, migrateToInterned_converted hold⟩,
      fun h => (by cases h)⟩
    rw [hold k] at hk
    cases hk
  · have htrans : migrateToInterned.run r (opened s) = (Script.transaction s.conversion).run r (opened s) := by
      have hsome : (!s.namedLayout .file && !s.namedLayout .failed) = false := by
        by_contra hnone
        rw [Bool.not_eq_false, Bool.and_eq_true, Bool.not_eq_true', Bool.not_eq_true'] at hnone
        exact hold fun k => match k with
          | .file => hnone.1
          | .failed => hnone.2
      simp only [migrateToInterned, Script.run, opened, hsome, Bool.false_eq_true, if_false]
    rw [htrans] at h
    rcases Script.run_transaction s.conversion r s with ⟨s', happly, hrun⟩ | ⟨c', hrun, hc'⟩
    · obtain ⟨rfl, rfl⟩ := Prod.mk.inj (hrun.symm.trans h)
      obtain ⟨hsame, -, hlay, hnames⟩ := sameRows_conversion hw happly
      exact ⟨fun _ => ⟨hsame.named, hsame.wellformed.files.paths, hnames, migrateToInterned_converted hlay⟩,
        fun h => (by cases h)⟩
    · obtain ⟨rfl, rfl⟩ := Prod.mk.inj (hrun.symm.trans h)
      exact ⟨fun h => (by cases h), fun _ => hc'⟩

/-- Two processes open `a`, one of them in vain, and `files` knows it already. -/
private def sharedName : TraceFile where
  processes := ⟨∅, [], fun _ h => (by cases h)⟩
  files := some [⟨7, ['a']⟩]
  access
    | .file => some (.named true [⟨1, 10, ['a'], 0, some 3, 5⟩, ⟨2, 10, ['b'], 1, none, 6⟩])
    | .failed => some (.named true [⟨1, 11, ['a'], 0, some 2, 7⟩])
  scratch _ := none

theorem sharedName_lossless : (migrateToInterned.run .healthy (opened sharedName)).1 = true ∧
    ∀ k, (migrateToInterned.run .healthy (opened sharedName)).2.current.named k = sharedName.named k := by
  have hids : ∀ k b rows, sharedName.access k = some (.named b rows) → (rows.map (·.id)).Nodup := by
    rintro (_ | _) b rows h <;> obtain ⟨rfl, rfl⟩ := AccessTable.named.inj (Option.some.inj h) <;> decide
  have hrefs : ∀ k rows, sharedName.access k = some (.interned rows) →
      ∀ a ∈ rows, a.fileId ∈ (sharedName.files.getD []).map (·.id) := by
    rintro (_ | _) rows h <;> cases h
  have hok : (migrateToInterned.run .healthy (opened sharedName)).1 = true := by decide
  exact ⟨hok, ((migration_lossless sharedName ⟨⟨by decide, by decide⟩, hids, hrefs⟩ .healthy _ _ rfl).1 hok).1⟩

end TraceFile
end Bdtrace
