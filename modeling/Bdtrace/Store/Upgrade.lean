import Bdtrace.Store.Migration

/-! `Database::upgrade_schema`, and what it makes of an upgrade that was interrupted. -/
namespace Bdtrace
open Scripts

namespace TraceFile

/-- `SELECT timestamp_us FROM file_accesses` can be prepared. -/
def hasTimestamps (s : TraceFile) : Bool :=
  match s.access .file with
  | some (.named b _) => b
  | some (.interned _) => true
  | none => false

/-- `sqlite3_column_int` of a count. -/
def columnInt (n : Nat) : Int := Int.bmod n (2 ^ 32)

/-- No process has files, but there are accesses: the sign of an interrupted trace. -/
def unfinished (s : TraceFile) : Bool :=
  .fileCount ∈ s.processes.columns && columnInt (s.processes.rows.filter fun r => 0 < r.fileCount).length = 0 &&
    0 < columnInt (((s.access .file).map (·.pids)).getD []).length

def withTimestamps : Script TraceFile := .look fun s => if s.hasTimestamps then .done true else .each [addTimestamps]

def toV2 : Script TraceFile :=
  .look fun s =>
    if s.hasTable .failed then .done true else withTimestamps.bind fun _ => .each [createFailed, maintain]

/-- The columns are added when the first of them is missing. -/
def addColumns (probe : ProcessColumn) (more : List ProcessColumn) (next : Script TraceFile) : Script TraceFile :=
  .look fun s =>
    if probe ∈ s.processes.columns then .done true
    else (Script.each ((probe :: more).map alterProcesses)).bind fun _ => next

def toV3 : Script TraceFile := addColumns .userTimeUs [.sysTimeUs, .peakRssKb, .ioReadBytes, .ioWriteBytes] (.done true)

def toV4 : Script TraceFile := addColumns .cwd [] (.done true)

def toV5 : Script TraceFile := addColumns .fileCount [.failCount] populateCounts

/-- The counts of an interrupted trace. -/
def repairCounts : Script TraceFile :=
  .look fun s => if s.unfinished then populateCounts.bind fun _ => .each [maintain] else .done true

/-- `Database::upgrade_schema`. -/
def upgradeSchema : Script TraceFile :=
  toV2.bind fun _ => toV3.bind fun _ => toV4.bind fun _ => toV5.bind fun _ =>
    migrateToInterned.bind fun ok =>
      if ok then (Script.each (List.replicate 6 maintain)).bind fun _ => repairCounts else .done false

/-! ### What an interruption leaves -/

/-- The tables of version 6. -/
def Interned (s : TraceFile) : Prop := (∃ fs, s.files = some fs) ∧ ∀ k, ∃ rows, s.access k = some (.interned rows)

/-- Both tables are there, with the same layout and with time stamps. -/
def Ready (s : TraceFile) : Prop := (∀ k, ∃ rows, s.access k = some (.named true rows)) ∨ s.Interned

/-- The counts are there and the upgrade has no reason to touch them. -/
def Settled (s : TraceFile) : Prop := .fileCount ∈ s.processes.columns ∧ s.unfinished = false

instance (s : TraceFile) : Decidable s.Settled := inferInstanceAs (Decidable (_ ∧ _))

/-- A row without its counts. -/
def bare (r : ProcessRecord) : ProcessRecord := r.withCounts (0, 0)

/-- What can be left of the upgrade of `db`: the same accesses and processes, but for the counts, in a
layout between the versions. -/
structure Midway (db s : TraceFile) : Prop where
  wellformed : s.Wellformed
  layout : ((∃ b rows, s.access .file = some (.named b rows)) ∧ s.access .failed = none) ∨ s.Ready
  scratch : ∀ k, s.scratch k = none
  named : ∀ k, s.named k = db.named k
  bare : s.processes.rows.map bare = db.processes.rows.map bare
  columns : db.processes.columns ⊆ s.processes.columns
  counts : db.Settled → s.processes.rows = db.processes.rows

theorem pids_eq {s : TraceFile} (hw : s.Wellformed) (k : AccessKind) :
    ((s.access k).map (·.pids)).getD [] = (s.named k).map (·.pid) := by
  cases hk : s.access k with
  | none => simp [named, hk]
  | some t =>
    cases t with
    | named b rows => cases b <;> simp [named, hk, AccessTable.pids, Function.comp_def]
    | interned rows =>
      have hrefs := hw.references k rows hk
      simp only [named, hk, Option.map_some, Option.getD_some, AccessTable.pids, namedBy,
        List.map_flatMap, List.map_map,
        Function.comp_def]
      clear hk
      induction rows with
      | nil => rfl
      | cons a rows ih =>
        obtain ⟨f, hf, hid⟩ := List.mem_map.mp (hrefs a List.mem_cons_self)
        rw [List.map_cons, List.flatMap_cons, ← ih fun b hb => hrefs b (List.mem_cons_of_mem _ hb), ← hid,
          filter_key (·.id) hw.files.ids hf]
        rfl

namespace Midway
variable {db s : TraceFile}

theorem withProcesses (h : Midway db s) (t : ProcessTable)
    (hbare : t.rows.map TraceFile.bare = s.processes.rows.map TraceFile.bare)
    (hcols : s.processes.columns ⊆ t.columns) (hcounts : db.Settled → t.rows = s.processes.rows) :
    Midway db { s with processes := t } :=
  ⟨⟨h.wellformed.files, h.wellformed.ids, h.wellformed.references⟩, h.layout, h.scratch, h.named, hbare.trans h.bare,
    h.columns.trans hcols, fun hs => (hcounts hs).trans (h.counts hs)⟩

theorem alterProcesses (h : Midway db s) {c : ProcessColumn} {t : TraceFile} (ht : s.alterProcesses c = some t) :
    Midway db t := by
  obtain ⟨p, hp, rfl⟩ := Option.map_eq_some_iff.mp ht
  rw [ProcessTable.addColumn, Option.ite_none_left_eq_some] at hp
  obtain ⟨-, hp⟩ := hp
  obtain rfl := Option.some.inj hp
  exact h.withProcesses _ rfl (Finset.subset_insert _ _) fun _ => rfl

theorem setCounts (h : Midway db s) (hfree : ¬ db.Settled) {f : ProcessRecord → Int × Int} {t : TraceFile}
    (ht : (s.processes.setCounts f).map (fun p => { s with processes := p }) = some t) : Midway db t := by
  obtain ⟨p, hp, rfl⟩ := Option.map_eq_some_iff.mp ht
  simp only [ProcessTable.setCounts, Option.dite_none_right_eq_some] at hp
  obtain ⟨hcols, hp⟩ := hp
  obtain rfl := Option.some.inj hp
  exact h.withProcesses _ (by simp [List.map_map, Function.comp_def, TraceFile.bare, ProcessRecord.withCounts])
    (Finset.Subset.refl _) fun hs => absurd hs hfree

/-- What follows the second version: both tables are there. -/
def Settling (db s : TraceFile) : Prop := Midway db s ∧ s.Ready

private theorem keeps_counts (hfree : ¬ db.Settled) (k : AccessKind) :
    Script.Keeps (Settling db) [resetCounts, updateCount k] := by
  intro f hf s t hs ht
  simp only [List.mem_cons, List.not_mem_nil, or_false] at hf
  rcases hf with rfl | rfl
  · obtain ⟨p, hp, rfl⟩ := Option.map_eq_some_iff.mp ht
    exact ⟨hs.1.setCounts hfree ht, hs.2⟩
  · rw [updateCount, Option.ite_none_right_eq_some] at ht
    obtain ⟨p, hp, rfl⟩ := Option.map_eq_some_iff.mp ht.2
    exact ⟨hs.1.setCounts hfree ht.2, hs.2⟩

private theorem keepsAt_populateCounts (hfree : ¬ db.Settled) (hs : Settling db s) :
    Script.KeepsAt (Settling db) populateCounts s := by
  refine (Script.keepsAt_all (keeps_counts hfree .file) hs).bind fun ok s' hs' => ?_
  split
  · apply Script.keepsAt_look
    split
    · apply Script.keepsAt_all _ hs'
      exact fun f hf => keeps_counts hfree .failed f (by simp [List.mem_singleton.mp hf])
    · exact Script.keepsAt_done hs' true
  · exact Script.keepsAt_done hs' false

private theorem keeps_maintain (n : Nat) : Script.Keeps (Settling db) (List.replicate n maintain) := by
  intro f hf s t hs ht
  obtain rfl := List.eq_of_mem_replicate hf
  exact Option.some.inj ht ▸ hs

private theorem keepsAt_addColumns (hs : Settling db s) (probe : ProcessColumn) (more : List ProcessColumn)
    (next : Script TraceFile)
    (hnext : probe ∉ s.processes.columns → ∀ s', Settling db s' → Script.KeepsAt (Settling db) next s') :
    Script.KeepsAt (Settling db) (addColumns probe more next) s := by
  apply Script.keepsAt_look
  split
  · exact Script.keepsAt_done hs true
  · rename_i hprobe
    refine (Script.keepsAt_each (fun f hf s t hs ht => ?_) hs).bind fun _ s' hs' => hnext hprobe s' hs'
    obtain ⟨c, -, rfl⟩ := List.mem_map.mp hf
    have hready : t.Ready := by
      obtain ⟨p, -, rfl⟩ := Option.map_eq_some_iff.mp ht
      exact hs.2
    exact ⟨hs.1.alterProcesses ht, hready⟩

/-- Interning the names is one more step on the way. -/
theorem conversion (hs : Settling db s) {t : TraceFile} (ht : applyAll s.conversion s = some t)
    (hold : ∃ k, s.namedLayout k = true) : Settling db t := by
  obtain ⟨hsame, hfiles, -, hnames⟩ := sameRows_conversion hs.1.wellformed ht
  have hnamed : ∀ k, s.namedLayout k = true := by
    obtain ⟨k, hk⟩ := hold
    rcases hs.2 with h | h
    · intro j
      obtain ⟨rows, hj⟩ := h j
      simp [namedLayout, hj]
    · obtain ⟨rows, hj⟩ := h.2 k
      simp [namedLayout, hj] at hk
  have hready : t.Ready := .inr ⟨hfiles, fun k => (hnames k (hnamed k)).1⟩
  refine ⟨⟨hsame.wellformed, .inr hready, fun k => hsame.scratch k (hs.1.scratch k),
    fun k => (hsame.named k).trans (hs.1.named k),
    ?_, ?_, ?_⟩, hready⟩ <;> rw [hsame.processes]
  · exact hs.1.bare
  · exact hs.1.columns
  · exact hs.1.counts

private theorem keepsAt_migrateToInterned (hs : Settling db s) : Script.KeepsAt (Settling db) migrateToInterned s := by
  apply Script.keepsAt_look
  split
  · exact Script.keepsAt_done hs true
  · rename_i hnone
    apply Script.keepsAt_transaction hs
    intro t ht
    apply conversion hs ht
    by_contra hno
    exact hnone (by simp [not_exists.mp hno])

/-- A table that is settled from the start shows no sign of an interrupted trace later. -/
theorem not_settled (hdb : db.Wellformed) (hs : Midway db s) (h : s.unfinished = true) : ¬ db.Settled := by
  rintro ⟨hcol, hno⟩
  have hpids : ((s.access .file).map (·.pids)).getD [] = ((db.access .file).map (·.pids)).getD [] := by
    rw [pids_eq hs.wellformed, pids_eq hdb, hs.named]
  have hrows := hs.counts ⟨hcol, hno⟩
  simp only [unfinished, Bool.and_eq_true] at h
  have hdbun : db.unfinished = true := by
    simp only [unfinished, Bool.and_eq_true]
    exact ⟨⟨decide_eq_true hcol, hrows ▸ h.1.2⟩, hpids ▸ h.2⟩
  rw [hno] at hdbun
  cases hdbun

private theorem keepsAt_repairCounts (hdb : db.Wellformed) (hs : Settling db s) :
    Script.KeepsAt (Settling db) repairCounts s := by
  apply Script.keepsAt_look
  split
  · rename_i hun
    exact (keepsAt_populateCounts (not_settled hdb hs.1 hun) hs).bind fun _ s' hs' =>
      Script.keepsAt_each (keeps_maintain 1) hs'
  · exact Script.keepsAt_done hs true

theorem addTimestamps (hs : Midway db s) {t : TraceFile} (ht : s.addTimestamps = some t) :
    Midway db t ∧ t.hasTimestamps = true ∧ t.processes = s.processes := by
  unfold TraceFile.addTimestamps at ht
  split at ht
  · rename_i rows hfile
    obtain rfl := Option.some.inj ht
    have hfailed : s.access .failed = none := by
      rcases hs.layout with h | h | h
      · exact h.2
      · obtain ⟨rows', h⟩ := h .file
        simp [hfile] at h
      · obtain ⟨rows', h⟩ := h.2 .file
        simp [hfile] at h
    refine ⟨⟨⟨hs.wellformed.files, ?_, ?_⟩, .inl ⟨⟨true, _, Function.update_self AccessKind.file _ s.access⟩, hfailed⟩,
      hs.scratch, fun k => ?_, hs.bare, hs.columns, hs.counts⟩, by simp [hasTimestamps], rfl⟩
    · rintro (_ | _) b rows' h
      · simp only [Function.update_self, Option.some.injEq, AccessTable.named.injEq] at h
        obtain ⟨-, rfl⟩ := h
        simpa [Function.comp_def] using hs.wellformed.ids .file false rows hfile
      · simp [hfailed] at h
    · rintro (_ | _) rows' h
      · simp at h
      · simp [hfailed] at h
    · rw [← hs.named]
      cases k <;> simp [TraceFile.named, hfile, hfailed]
  · cases ht

theorem createFailed (hs : Midway db s) (hts : s.hasTimestamps = true) {t : TraceFile} (ht : s.createFailed = some t) :
    Settling db t ∧ t.processes = s.processes := by
  obtain rfl := Option.some.inj ht
  by_cases htable : s.hasTable .failed = true
  · simp only [htable, if_true]
    refine ⟨⟨hs, hs.layout.resolve_left fun h => ?_⟩, trivial⟩
    simp [hasTable, h.2] at htable
  · have hfailed : s.access .failed = none := by simpa [hasTable] using htable
    obtain ⟨b, rows, hfile⟩ : ∃ b rows, s.access .file = some (.named b rows) := by
      rcases hs.layout with h | h | h
      · exact h.1
      · obtain ⟨rows, h⟩ := h .failed
        simp [hfailed] at h
      · obtain ⟨rows, h⟩ := h.2 .failed
        simp [hfailed] at h
    obtain rfl : b = true := by simpa [hasTimestamps, hfile] using hts
    simp only [htable, Bool.false_eq_true, if_false]
    have hready : Ready { s with access := Function.update s.access .failed (some (.named true [])) } :=
      .inl fun k => match k with
        | .file => ⟨rows, by simpa using hfile⟩
        | .failed => ⟨[], by simp⟩
    refine ⟨⟨⟨⟨hs.wellformed.files, ?_, ?_⟩, .inr hready, hs.scratch, fun k => ?_, hs.bare, hs.columns,
      hs.counts⟩, hready⟩, trivial⟩
    · rintro (_ | _) b' rows' h
      · exact hs.wellformed.ids .file b' rows' (by simpa using h)
      · simp only [Function.update_self, Option.some.injEq, AccessTable.named.injEq] at h
        simp [← h.2]
    · rintro (_ | _) rows' h
      · simp [hfile] at h
      · simp at h
    · rw [← hs.named]
      cases k <;> simp [TraceFile.named, hfailed]

private theorem keepsAt_withTimestamps (hs : Midway db s) (htable : ¬ s.hasTable .failed = true) :
    Script.KeepsAt (Midway db) withTimestamps s ∧
      ∃ ok u, withTimestamps.finish s = (ok, opened u) ∧ Midway db u ∧ u.hasTimestamps = true ∧
        u.processes = s.processes := by
  by_cases hts : s.hasTimestamps = true
  · refine ⟨Script.keepsAt_look ?_, true,
      s, by simp [withTimestamps, Script.finish, Script.run, opened, hts], hs, hts, rfl⟩
    rw [if_pos hts]
    exact Script.keepsAt_done hs true
  · obtain ⟨t, ht⟩ : ∃ t, s.addTimestamps = some t := by
      have hfile : ∃ b rows, s.access .file = some (.named b rows) := by
        refine (hs.layout.resolve_right ?_).1
        rintro (h | ⟨-, h⟩) <;> obtain ⟨rows, h⟩ := h .failed <;> exact htable (by simp [hasTable, h])
      obtain ⟨b, rows, hfile⟩ := hfile
      obtain rfl : b = false := by simpa [hasTimestamps, hfile] using hts
      simp only [TraceFile.addTimestamps, hfile]
      exact ⟨_, rfl⟩
    obtain ⟨hmid, hts', hproc⟩ := addTimestamps hs ht
    have hfin : withTimestamps.finish s = (true, opened t) := by
      have hstep : withTimestamps.finish s = (Script.each [TraceFile.addTimestamps]).finish s := by
        simp [withTimestamps, Script.finish, Script.run, opened, hts]
      rw [hstep, Script.finish_each]
      simp [attempt, ht]
    refine ⟨Script.keepsAt_look ?_, true, t, hfin, hmid, hts', hproc⟩
    rw [if_neg hts]
    refine Script.keepsAt_exec hs (fun t' ht' => ?_) fun hn => ?_
    · rw [ht] at ht'
      exact Option.some.inj ht' ▸ Script.keepsAt_done hmid true
    · rw [ht] at hn
      cases hn

/-- The step to version 2 leaves both tables. -/
theorem keepsAt_toV2 (hs : Midway db s) : Script.KeepsAt (Midway db) toV2 s ∧
    ∃ ok s', toV2.finish s = (ok, opened s') ∧ Settling db s' ∧ s'.processes = s.processes := by
  have hcreate : ∀ u : TraceFile, Midway db u → u.hasTimestamps = true → u.processes = s.processes →
      Script.KeepsAt (Midway db) (.each [TraceFile.createFailed, maintain]) u ∧
      ∃ ok s', (Script.each [TraceFile.createFailed, maintain]).finish u = (ok, opened s') ∧ Settling db s' ∧
        s'.processes = s.processes := by
    intro u hu hts hproc
    obtain ⟨t, ht⟩ : ∃ t, u.createFailed = some t := ⟨_, rfl⟩
    obtain ⟨hsettling, hproc'⟩ := createFailed hu hts ht
    have hlast : Script.KeepsAt (Midway db) (.each [maintain]) t :=
      (Script.keepsAt_each (keeps_maintain 1) hsettling).imp fun _ h => h.1
    refine ⟨Script.keepsAt_exec hu (fun t' ht' => ?_) fun hn => ?_, true, t, ?_, hsettling, hproc'.trans hproc⟩
    · rw [ht] at ht'
      exact Option.some.inj ht' ▸ hlast
    · rw [ht] at hn
      cases hn
    · rw [Script.finish_each]
      simp [attempt, ht, maintain]
  by_cases htable : s.hasTable .failed = true
  · have hrun : toV2.finish s = (true, opened s) := by simp [toV2, Script.finish, Script.run, opened, htable]
    have hsettling : Settling db s := ⟨hs, hs.layout.resolve_left fun h => by simp [hasTable, h.2] at htable⟩
    refine ⟨Script.keepsAt_look ?_, true, s, hrun, hsettling, rfl⟩
    rw [if_pos htable]
    exact Script.keepsAt_done hs true
  · obtain ⟨hkeeps, ok, u, hfin, hu, hts, hproc⟩ := keepsAt_withTimestamps hs htable
    obtain ⟨hkeeps', ok', s', hfin', hs', hproc'⟩ := hcreate u hu hts hproc
    have hrun : toV2.finish s = (ok', opened s') := by
      have hstep :
          toV2.finish s = (withTimestamps.bind fun _ => .each [TraceFile.createFailed, maintain]).finish s := by
        simp [toV2, Script.finish, Script.run, opened, htable]
      rw [hstep, Script.finish_bind hfin, hfin']
    refine ⟨Script.keepsAt_look ?_, ok', s', hrun, hs', hproc'⟩
    rw [if_neg htable]
    exact hkeeps.bind_of_finish hfin hkeeps'

/-- Wherever the upgrade is interrupted, it is midway. -/
theorem interrupted (hdb : db.Wellformed) (hs : Midway db s) (n : Nat) : Midway db (upgradeSchema.interrupted n s) := by
  obtain ⟨hkeeps, ok, s', hfin, hs', -⟩ := keepsAt_toV2 hs
  have hrest : Script.KeepsAt (Settling db) (toV3.bind fun _ => toV4.bind fun _ => toV5.bind fun _ =>
      migrateToInterned.bind fun ok =>
        if ok then (Script.each (List.replicate 6 maintain)).bind fun _ => repairCounts else .done false) s' := by
    refine (keepsAt_addColumns hs' _ _ _ fun _ s hs => Script.keepsAt_done hs true).bind fun _ s hs => ?_
    refine (keepsAt_addColumns hs _ _ _ fun _ s hs => Script.keepsAt_done hs true).bind fun _ s hs => ?_
    refine (keepsAt_addColumns hs _ _ _ fun hcol s' hs' => ?_).bind fun _ s hs => ?_
    · exact keepsAt_populateCounts (fun hd => hcol (hs.1.columns hd.1)) hs'
    refine (keepsAt_migrateToInterned hs).bind fun ok s hs => ?_
    split
    · exact (Script.keepsAt_each (keeps_maintain 6) hs).bind fun _ s hs => keepsAt_repairCounts hdb hs
    · exact Script.keepsAt_done hs false
  exact (hkeeps.bind_of_finish hfin (hrest.imp fun _ h => h.1)).interrupted n

end Midway
end TraceFile
end Bdtrace
