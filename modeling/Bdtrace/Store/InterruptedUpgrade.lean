import Bdtrace.Store.Upgrade

/-! What `upgrade_schema` yields, and which interrupted upgrades it repairs. -/
namespace Bdtrace
open Scripts

namespace TraceFile

/-- A row with both counts taken from the access rows. -/
def counted (s : TraceFile) (r : ProcessRecord) : ProcessRecord :=
  r.withCounts (((s.named .file).map (·.pid)).count r.pid, ((s.named .failed).map (·.pid)).count r.pid)

private theorem attempt_setCounts {s : TraceFile} {f : ProcessRecord → Int × Int}
    (h : .fileCount ∈ s.processes.columns ∧ .failCount ∈ s.processes.columns) :
    ∃ t : ProcessTable, (s.processes.setCounts f).map (fun p => { s with processes := p }) =
      some { s with processes := t } ∧
      t.columns = s.processes.columns ∧ t.rows = s.processes.rows.map fun r => r.withCounts (f r) := by
  simp only [ProcessTable.setCounts, h, and_self, dif_pos, Option.map_some]
  exact ⟨_, rfl, rfl, rfl⟩

private theorem finish_populateCounts {s : TraceFile} (hw : s.Wellformed) (htables : ∀ k, s.hasTable k = true)
    (h : .fileCount ∈ s.processes.columns ∧ .failCount ∈ s.processes.columns) :
    ∃ t : ProcessTable, populateCounts.finish s = (true, opened { s with processes := t }) ∧
      t.columns = s.processes.columns ∧ t.rows = s.processes.rows.map s.counted := by
  obtain ⟨t₁, h₁, hc₁, hr₁⟩ := @attempt_setCounts s (fun _ => (0, 0)) h
  obtain ⟨t₂, h₂, hc₂, hr₂⟩ := @attempt_setCounts { s with processes := t₁ }
    (fun r => (s.countOf .file r.pid, r.failCount)) (by
    rw [hc₁]
    exact h)
  obtain ⟨t₃, h₃, hc₃, hr₃⟩ := @attempt_setCounts { s with processes := t₂ }
    (fun r => (r.fileCount, s.countOf .failed r.pid)) (by
    rw [hc₂, hc₁]
    exact h)
  have hfirst : (Script.all [resetCounts, updateCount .file]).finish s = (true, opened { s with processes := t₂ }) := by
    apply Script.finish_all
    have hu : updateCount .file { s with processes := t₁ } = some { s with processes := t₂ } :=
      (if_pos (htables .file)).trans h₂
    simp [applyAll, resetCounts, h₁, hu]
  refine ⟨t₃, ?_, by rw [hc₃, hc₂, hc₁], ?_⟩
  · rw [populateCounts, Script.finish_bind hfirst]
    have hthird : (Script.all [updateCount .failed]).finish { s with processes := t₂ } =
        (true, opened { s with processes := t₃ }) := by
      apply Script.finish_all
      have hu : updateCount .failed { s with processes := t₂ } = some { s with processes := t₃ } :=
        (if_pos (htables .failed)).trans h₃
      simp [applyAll, hu]
    have hlook : ({ s with processes := t₂ } : TraceFile).hasTable .failed = true := htables .failed
    simp only [if_true, Script.finish, Script.run, opened, hlook] at hthird ⊢
    exact hthird
  · rw [hr₃, hr₂, hr₁, List.map_map, List.map_map]
    apply List.map_congr_left
    intro r _
    simp only [Function.comp_apply, counted, ProcessRecord.withCounts, countOf, pids_eq hw]

/-- Without the second column the first statement is refused. -/
private theorem finish_populateCounts_refused {s : TraceFile} (h : .failCount ∉ s.processes.columns) :
    populateCounts.finish s = (false, opened s) := by
  have hreset : resetCounts s = none := by
    simp [resetCounts, ProcessTable.setCounts, h]
  simp [populateCounts, Script.finish, Script.all, Script.bind, Script.run, Faults.healthy, opened, hreset]

private theorem finish_addColumns {s : TraceFile} (probe : ProcessColumn) (more : List ProcessColumn)
    (next : Script TraceFile) :
    (probe ∈ s.processes.columns → (addColumns probe more next).finish s = (true, opened s)) ∧
    (probe ∉ s.processes.columns → ∃ t : ProcessTable,
      (addColumns probe more next).finish s = next.finish { s with processes := t } ∧ t.rows = s.processes.rows ∧
        ∀ c, c ∈ t.columns ↔ c ∈ s.processes.columns ∨ c ∈ probe :: more) := by
  have hfold : ∀ (cs : List ProcessColumn) (t : ProcessTable), ∃ u : ProcessTable,
      (cs.map alterProcesses).foldl attempt { s with processes := t } = { s with processes := u } ∧ u.rows = t.rows ∧
        ∀ c, c ∈ u.columns ↔ c ∈ t.columns ∨ c ∈ cs := fun cs => by
    induction cs with
    | nil => exact fun t => ⟨t, rfl, rfl, fun c => by simp⟩
    | cons d cs ih =>
      intro t
      by_cases hd : d ∈ t.columns
      · obtain ⟨u, hu, hrows, hcols⟩ := ih t
        refine ⟨u, ?_, hrows, fun c => ?_⟩
        · rw [List.map_cons, List.foldl_cons, ← hu]
          simp [attempt, alterProcesses, ProcessTable.addColumn, hd]
        · rw [hcols, List.mem_cons]
          constructor
          · exact fun h => h.imp_right .inr
          · rintro (h | rfl | h)
            · exact .inl h
            · exact .inl hd
            · exact .inr h
      · obtain ⟨u, hu, hrows, hcols⟩ := ih ⟨insert d t.columns, t.rows, fun r hr c hc =>
          t.absent r hr c fun h => hc (Finset.mem_insert_of_mem h)⟩
        refine ⟨u, ?_, hrows, fun c => ?_⟩
        · rw [List.map_cons, List.foldl_cons, ← hu]
          simp [attempt, alterProcesses, ProcessTable.addColumn, hd]
        · rw [hcols, Finset.mem_insert, List.mem_cons]
          tauto
  refine ⟨fun hprobe => ?_, fun hprobe => ?_⟩
  · simp [addColumns, Script.finish, Script.run, opened, hprobe]
  · obtain ⟨u, hu, hrows, hcols⟩ := hfold (probe :: more) s.processes
    refine ⟨u, ?_, hrows, hcols⟩
    have hstep : (addColumns probe more next).finish s =
        ((Script.each ((probe :: more).map alterProcesses)).bind fun _ => next).finish s := by
      simp [addColumns, Script.finish, Script.run, opened, hprobe]
    rw [hstep, Script.finish_bind (Script.finish_each _ s), hu]

private theorem finish_migrateToInterned {db s : TraceFile} (hs : Midway.Settling db s) :
    ∃ s', migrateToInterned.finish s = (true, opened s') ∧ Midway.Settling db s' ∧ s'.Interned ∧
      s'.processes = s.processes := by
  rcases hs.2 with hnamed | hinterned
  · have hlayout : ∀ k, s.namedLayout k = true := fun k => by
      obtain ⟨rows, h⟩ := hnamed k
      simp [namedLayout, h]
    obtain ⟨s', happly⟩ : ∃ s', applyAll s.conversion s = some s' := by
      obtain ⟨rows, hrows⟩ := hnamed .file
      obtain ⟨rows', hrows'⟩ := hnamed .failed
      have hw₁ : ({ s with files := some (s.files.getD []) } : TraceFile).Wellformed :=
        ⟨hs.1.wellformed.files, hs.1.wellformed.ids, hs.1.wellformed.references⟩
      obtain ⟨s₁, h₁⟩ := convert_succeeds hw₁ rfl hrows (hs.1.scratch .file)
      obtain ⟨hsame, ⟨gs, hgs⟩, -, hother, -⟩ := sameRows_convert hw₁ rfl h₁
      obtain ⟨s₂, h₂⟩ := convert_succeeds hsame.wellformed hgs ((hother .failed (by decide)).trans hrows')
        (hsame.scratch .failed (hs.1.scratch .failed))
      refine ⟨s₂, ?_⟩
      simp only [conversion, hlayout, if_true, applyAll, List.cons_append, List.foldlM_cons, createFiles,
        List.foldlM_append]
      simp only [applyAll] at h₁ h₂
      simp [h₁, h₂]
    have hsettling := Midway.conversion hs happly ⟨.file, hlayout .file⟩
    obtain ⟨hsame, hfiles, -, hnames⟩ := sameRows_conversion hs.1.wellformed happly
    refine ⟨s', ?_, hsettling, ⟨hfiles, fun k => (hnames k (hlayout k)).1⟩, hsame.processes⟩
    rw [← Script.finish_transaction happly]
    simp [migrateToInterned, Script.finish, Script.run, opened, hlayout]
  · have hlayout : ∀ k, s.namedLayout k = false := fun k => by
      obtain ⟨rows, h⟩ := hinterned.2 k
      simp [namedLayout, h]
    exact ⟨s, migrateToInterned_converted hlayout .healthy, hs, hinterned, rfl⟩

/-- What the counts are after `repairCounts`. -/
private theorem finish_repairCounts {db s : TraceFile} (hs : Midway.Settling db s) (hinterned : s.Interned) :
    ∃ t : ProcessTable, repairCounts.finish s = (true, opened { s with processes := t }) ∧
      t.columns = s.processes.columns ∧
      t.rows = if s.unfinished = true ∧ .failCount ∈ s.processes.columns then s.processes.rows.map s.counted
        else s.processes.rows := by
  by_cases hun : s.unfinished = true
  · have hfile : .fileCount ∈ s.processes.columns := by
      simp only [unfinished, Bool.and_eq_true] at hun
      exact of_decide_eq_true hun.1.1
    have hstep : repairCounts.finish s = (populateCounts.bind fun _ => .each [maintain]).finish s := by
      simp [repairCounts, Script.finish, Script.run, opened, hun]
    by_cases hfail : .failCount ∈ s.processes.columns
    · obtain ⟨t, hfin, hcols, hrows⟩ := finish_populateCounts hs.1.wellformed (fun k => by
        obtain ⟨rows, h⟩ := hinterned.2 k
        simp [hasTable, h]) ⟨hfile, hfail⟩
      refine ⟨t, ?_, hcols, by rw [if_pos ⟨hun, hfail⟩, hrows]⟩
      rw [hstep, Script.finish_bind hfin, Script.finish_each]
      rfl
    · refine ⟨s.processes, ?_, rfl, by rw [if_neg fun h => hfail h.2]⟩
      rw [hstep, Script.finish_bind (finish_populateCounts_refused hfail), Script.finish_each]
      rfl
  · refine ⟨s.processes, ?_, rfl, by rw [if_neg fun h => hun h.1]⟩
    simp [repairCounts, Script.finish, Script.run, opened, hun]

/-! ### The whole upgrade -/

private theorem counted_congr {s t : TraceFile} (h : ∀ k, s.named k = t.named k) : s.counted = t.counted := by
  funext r
  rw [counted, counted, h, h]

private theorem finish_addColumns_done {db s : TraceFile} (hs : Midway.Settling db s) (probe : ProcessColumn)
    (more : List ProcessColumn) :
    ∃ s', (addColumns probe more (.done true)).finish s = (true, opened s') ∧ Midway.Settling db s' ∧
      s'.processes.rows = s.processes.rows ∧
      ∀ c, c ∈ s'.processes.columns ↔ c ∈ s.processes.columns ∨ (probe ∉ s.processes.columns ∧ c ∈ probe :: more) := by
  obtain ⟨hin, hout⟩ := @finish_addColumns s probe more (.done true)
  by_cases hprobe : probe ∈ s.processes.columns
  · exact ⟨s, hin hprobe, hs, rfl, fun c => by simp [hprobe]⟩
  · obtain ⟨t, hfin, hrows, hcols⟩ := hout hprobe
    refine ⟨{ s with processes := t }, hfin, ⟨hs.1.withProcesses t (by rw [hrows]) (fun c hc => (hcols c).mpr (.inl hc))
      fun _ => hrows, hs.2⟩, hrows, fun c => ?_⟩
    rw [hcols]
    simp [hprobe]

private theorem finish_toV5 {db s : TraceFile} (hs : Midway.Settling db s) :
    ∃ s', toV5.finish s = (true, opened s') ∧ Midway.Settling db s' ∧
      s'.processes.rows =
        (if .fileCount ∈ s.processes.columns then s.processes.rows else s.processes.rows.map db.counted) ∧
      ∀ c, c ∈ s'.processes.columns ↔
        c ∈ s.processes.columns ∨ (.fileCount ∉ s.processes.columns ∧ c ∈ [.fileCount, .failCount]) := by
  obtain ⟨hin, hout⟩ := @finish_addColumns s .fileCount [.failCount] populateCounts
  by_cases hfile : .fileCount ∈ s.processes.columns
  · exact ⟨s, hin hfile, hs, by rw [if_pos hfile], fun c => by simp [hfile]⟩
  · obtain ⟨t, hfin, hrows, hcols⟩ := hout hfile
    have hs' : Midway.Settling db { s with processes := t } :=
      ⟨hs.1.withProcesses t (by rw [hrows]) (fun c hc => (hcols c).mpr (.inl hc)) fun _ => hrows, hs.2⟩
    have htables : ∀ k, ({ s with processes := t } : TraceFile).hasTable k = true := fun k => by
      rcases hs.2 with h | h
      · obtain ⟨rows, h⟩ := h k
        simp [hasTable, h]
      · obtain ⟨rows, h⟩ := h.2 k
        simp [hasTable, h]
    obtain ⟨u, hpop, hucols, hurows⟩ := finish_populateCounts hs'.1.wellformed htables
      ⟨(hcols _).mpr (.inr (by simp)), (hcols _).mpr (.inr (by simp))⟩
    have hcounted : ({ s with processes := t } : TraceFile).counted = db.counted := counted_congr hs'.1.named
    rw [hcounted] at hurows
    have hfree : ¬ db.Settled := fun hd => hfile (hs.1.columns hd.1)
    refine ⟨{ s with processes := u }, hfin.trans hpop, ⟨hs'.1.withProcesses u ?_ (hucols ▸ Finset.Subset.refl _)
      fun hd => absurd hd hfree, hs.2⟩, ?_, fun c => ?_⟩
    · rw [hurows, List.map_map]
      exact List.map_congr_left fun r _ => rfl
    · rw [if_neg hfile, hurows, ← hrows]
    · rw [show ({ s with processes := u } : TraceFile).processes.columns = t.columns from hucols, hcols]
      simp [hfile]

/-- What the upgrade makes of a file that is midway. -/
private theorem finish_upgradeSchema {db m : TraceFile} (hm : Midway db m) :
    ∃ u, upgradeSchema.finish m = (true, opened u) ∧ u.Interned ∧ (∀ k, u.named k = db.named k) ∧
      (∀ c, c ∈ u.processes.columns ↔ c ∈ m.processes.columns ∨
        (.userTimeUs ∉ m.processes.columns ∧ c ∈ [.userTimeUs, .sysTimeUs, .peakRssKb, .ioReadBytes, .ioWriteBytes]) ∨
        c = .cwd ∨ (.fileCount ∉ m.processes.columns ∧ c ∈ [.fileCount, .failCount])) ∧
      u.processes.rows =
        if .fileCount ∈ m.processes.columns ∧
          ¬ (m.unfinished = true ∧ .failCount ∈ m.processes.columns) then m.processes.rows
        else m.processes.rows.map db.counted := by
  obtain ⟨-, ok₁, s₁, h₁, hs₁, hproc₁⟩ := Midway.keepsAt_toV2 hm
  obtain ⟨s₂, h₂, hs₂, hrows₂, hcols₂⟩ := finish_addColumns_done hs₁ .userTimeUs
    [.sysTimeUs, .peakRssKb, .ioReadBytes, .ioWriteBytes]
  obtain ⟨s₃, h₃, hs₃, hrows₃, hcols₃⟩ := finish_addColumns_done hs₂ .cwd []
  obtain ⟨s₄, h₄, hs₄, hrows₄, hcols₄⟩ := finish_toV5 hs₃
  obtain ⟨s₅, h₅, hs₅, hinterned, hproc₅⟩ := finish_migrateToInterned hs₄
  obtain ⟨t, h₆, hcols₆, hrows₆⟩ := finish_repairCounts hs₅ hinterned
  have hfile₃ : ProcessColumn.fileCount ∈ s₃.processes.columns ↔ ProcessColumn.fileCount ∈ m.processes.columns := by
    rw [hcols₃, hcols₂, hproc₁]
    simp
  refine ⟨{ s₅ with processes := t }, ?_, hinterned, hs₅.1.named, fun c => ?_, ?_⟩
  · rw [upgradeSchema, Script.finish_bind h₁, toV3, Script.finish_bind h₂, toV4, Script.finish_bind h₃,
      Script.finish_bind h₄,
      Script.finish_bind h₅, if_pos rfl, Script.finish_bind (Script.finish_each _ _)]
    exact h₆
  · show c ∈ t.columns ↔ _
    rw [hcols₆, hproc₅, hcols₄, hcols₃, hcols₂, hproc₁, hfile₃]
    have hcwd : ProcessColumn.cwd ∈ s₂.processes.columns ↔ ProcessColumn.cwd ∈ m.processes.columns := by
      rw [hcols₂, hproc₁]
      simp
    rw [hcwd]
    cases c <;> simp
    tauto
  · show t.rows = _
    have hrows : s₃.processes.rows = m.processes.rows := by rw [hrows₃, hrows₂, hproc₁]
    rw [hrows₆, hproc₅, counted_congr hs₅.1.named, hrows₄, hrows]
    by_cases hfile : ProcessColumn.fileCount ∈ m.processes.columns
    · have hsame : s₅.processes.rows = m.processes.rows := by rw [hproc₅, hrows₄, if_pos (hfile₃.mpr hfile), hrows]
      have hun : s₅.unfinished = m.unfinished := by
        have hcol : ProcessColumn.fileCount ∈ s₅.processes.columns := by
          rw [hproc₅, hcols₄]
          exact .inl (hfile₃.mpr hfile)
        simp only [unfinished, hsame, hcol, hfile, pids_eq hs₅.1.wellformed, pids_eq hm.wellformed,
          hs₅.1.named, hm.named]
      have hfail : ProcessColumn.failCount ∈ s₄.processes.columns ↔ ProcessColumn.failCount ∈ m.processes.columns := by
        rw [hcols₄, hcols₃, hcols₂, hproc₁, hfile₃]
        simp [hfile]
      rw [if_pos (hfile₃.mpr hfile), hun]
      by_cases h : m.unfinished = true ∧ ProcessColumn.failCount ∈ m.processes.columns
      · rw [if_pos ⟨h.1, hfail.mpr h.2⟩, if_neg fun hc => hc.2 h]
      · rw [if_neg fun hc => h ⟨hc.1, hfail.mp hc.2⟩, if_pos ⟨hfile, h⟩]
    · have hno : ¬ (ProcessColumn.fileCount ∈ m.processes.columns ∧
          ¬ (m.unfinished = true ∧ ProcessColumn.failCount ∈ m.processes.columns)) := fun h => hfile h.1
      rw [if_neg (mt hfile₃.mp hfile), if_neg hno]
      split
      · rw [List.map_map]
        exact List.map_congr_left fun r _ => rfl
      · rfl

/-! ### Databases of the older versions -/

inductive SchemaVersion where
  | v1 | v2 | v3 | v4 | v5
  deriving DecidableEq, Repr

/-- The later columns of `processes` that a version has. -/
def SchemaVersion.columns : SchemaVersion → Finset ProcessColumn
  | .v1 | .v2 => ∅
  | .v3 => {.userTimeUs, .sysTimeUs, .peakRssKb, .ioReadBytes, .ioWriteBytes}
  | .v4 => {.userTimeUs, .sysTimeUs, .peakRssKb, .ioReadBytes, .ioWriteBytes, .cwd}
  | .v5 => {.userTimeUs, .sysTimeUs, .peakRssKb, .ioReadBytes, .ioWriteBytes, .cwd, .fileCount, .failCount}

/-- A database of an older version. Version 1 has no `failed_accesses` and may lack the time stamps. -/
structure HasVersion (v : SchemaVersion) (db : TraceFile) : Prop where
  columns : db.processes.columns = v.columns
  file : ∃ b rows, db.access .file = some (.named b rows) ∧ (v ≠ .v1 → b = true)
  failed : if v = .v1 then db.access .failed = none else ∃ rows, db.access .failed = some (.named true rows)
  ids : ∀ k b rows, db.access k = some (.named b rows) → (rows.map (·.id)).Nodup
  files : db.files = none
  scratch : ∀ k, db.scratch k = none

theorem HasVersion.wellformed {v : SchemaVersion} {db : TraceFile} (h : HasVersion v db) : db.Wellformed := by
  refine ⟨?_, h.ids, fun k rows hk => ?_⟩
  · rw [h.files]
    exact ⟨List.nodup_nil, List.nodup_nil⟩
  cases k with
  | file =>
    obtain ⟨b, rows', hfile, -⟩ := h.file
    simp [hfile] at hk
  | failed =>
    have hfailed := h.failed
    split at hfailed
    · simp [hfailed] at hk
    · obtain ⟨rows', hfailed⟩ := hfailed
      simp [hfailed] at hk

private theorem HasVersion.midway {v : SchemaVersion} {db : TraceFile} (h : HasVersion v db) : Midway db db := by
  refine ⟨h.wellformed, ?_, h.scratch, fun _ => rfl, rfl, Finset.Subset.refl _, fun _ => rfl⟩
  obtain ⟨b, rows, hfile, hb⟩ := h.file
  have hfailed := h.failed
  split at hfailed
  · exact .inl ⟨⟨b, rows, hfile⟩, hfailed⟩
  · rename_i hv
    refine .inr (.inl fun k => ?_)
    cases k with
    | file => exact ⟨rows, hb hv ▸ hfile⟩
    | failed => exact hfailed

theorem HasVersion.counts {v : SchemaVersion} {db : TraceFile} (h : HasVersion v db) :
    .fileCount ∈ db.processes.columns ↔ .failCount ∈ db.processes.columns := by
  rw [h.columns]
  cases v <;> decide

/-- A second upgrade, of what an interruption left, gives what an undisturbed one gives. -/
def Recovers (db left : TraceFile) : Prop :=
  ∃ u v, upgradeSchema.finish db = (true, opened v) ∧ upgradeSchema.finish left = (true, opened u) ∧
    (∀ c, c ∈ u.processes.columns) ∧ u.Interned ∧ (∀ k, u.named k = v.named k) ∧ u.processes.rows = v.processes.rows

/-- The probes do not mistake a half-done step for a finished one: the first column of a step is not there
without the others, and counts are not there that have yet to be taken, unless the repair takes them. -/
def Repairable (db left : TraceFile) : Prop :=
  (.userTimeUs ∈ left.processes.columns →
    ∀ c ∈ [ProcessColumn.sysTimeUs, .peakRssKb, .ioReadBytes, .ioWriteBytes], c ∈ left.processes.columns) ∧
  (.fileCount ∈ left.processes.columns → .failCount ∈ left.processes.columns ∧
    (db.Settled ∨ left.unfinished = true ∨ ∀ r ∈ left.processes.rows, left.counted r = r))

/-- The counts depend on the pid and the accesses alone. -/
private theorem map_counted_bare (db : TraceFile) (rows : List ProcessRecord) :
    rows.map db.counted = (rows.map bare).map db.counted := by
  rw [List.map_map]
  exact List.map_congr_left fun r _ => rfl

/-- The columns are complete unless the first of a step was there without the others. -/
private theorem complete_iff {old new : Finset ProcessColumn} (h : ∀ c, c ∈ new ↔ c ∈ old ∨
      (.userTimeUs ∉ old ∧ c ∈ [ProcessColumn.userTimeUs, .sysTimeUs, .peakRssKb, .ioReadBytes, .ioWriteBytes]) ∨
      c = .cwd ∨ (.fileCount ∉ old ∧ c ∈ [ProcessColumn.fileCount, .failCount])) :
    (∀ c, c ∈ new) ↔
      (.userTimeUs ∈ old → ∀ c ∈ [ProcessColumn.sysTimeUs, .peakRssKb, .ioReadBytes, .ioWriteBytes], c ∈ old) ∧
        (.fileCount ∈ old → .failCount ∈ old) := by
  constructor
  · refine fun hall => ⟨fun huser c hc => ?_, fun hfile => ?_⟩
    · rcases (h c).mp (hall c) with hold | ⟨hno, -⟩ | rfl | ⟨-, hcount⟩
      · exact hold
      · exact absurd huser hno
      · simp at hc
      · rcases List.mem_pair.mp hcount with rfl | rfl
        · simp at hc
        · simp at hc
    · rcases (h .failCount).mp (hall _) with hold | ⟨-, htimes⟩ | hcwd | ⟨hno, -⟩
      · exact hold
      · simp at htimes
      · cases hcwd
      · exact absurd hfile hno
  · rintro ⟨huser, hfail⟩ c
    rw [h]
    by_cases huserIn : ProcessColumn.userTimeUs ∈ old
    · have htimes := huser huserIn
      simp only [List.forall_mem_cons] at htimes
      by_cases hfileIn : ProcessColumn.fileCount ∈ old
      · cases c <;> simp [huserIn, htimes, hfileIn, hfail hfileIn]
      · cases c <;> simp [huserIn, htimes, hfileIn]
    · by_cases hfileIn : ProcessColumn.fileCount ∈ old
      · cases c <;> simp [huserIn, hfileIn, hfail hfileIn]
      · cases c <;> simp [huserIn, hfileIn]

/-- What the undisturbed upgrade leaves in the rows: the counts, unless they are settled. -/
private theorem settled_rows {v : SchemaVersion} {db : TraceFile} (hv : HasVersion v db) {rows : List ProcessRecord}
    (hrows : rows = if .fileCount ∈ db.processes.columns ∧ ¬ (db.unfinished = true ∧ .failCount ∈ db.processes.columns)
      then db.processes.rows else db.processes.rows.map db.counted) :
    rows = if db.Settled then db.processes.rows else db.processes.rows.map db.counted := by
  rw [hrows]
  by_cases hs : db.Settled
  · have hno : ¬ (db.unfinished = true ∧ ProcessColumn.failCount ∈ db.processes.columns) := by simp [hs.2]
    rw [if_pos hs, if_pos ⟨hs.1, hno⟩]
  · have hno : ¬ (ProcessColumn.fileCount ∈ db.processes.columns ∧
        ¬ (db.unfinished = true ∧ ProcessColumn.failCount ∈ db.processes.columns)) := by
      rintro ⟨hfile, hn⟩
      have hun : db.unfinished ≠ true := fun hun => hn ⟨hun, hv.counts.mp hfile⟩
      exact hs ⟨hfile, by simpa using hun⟩
    rw [if_neg hs, if_neg hno]

theorem upgrade_recovers_iff (v : SchemaVersion) (db : TraceFile) (hv : HasVersion v db) (n : Nat) :
    Recovers db (upgradeSchema.interrupted n db) ↔ Repairable db (upgradeSchema.interrupted n db) := by
  have hm := Midway.interrupted hv.wellformed hv.midway n
  generalize upgradeSchema.interrupted n db = m at hm
  obtain ⟨w, hfin, -, hnamed, -, hrows⟩ := finish_upgradeSchema hv.midway
  obtain ⟨u, hfin', hinterned, hnamed', hcols', hrows'⟩ := finish_upgradeSchema hm
  have hmap : m.processes.rows.map db.counted = db.processes.rows.map db.counted := by
    rw [map_counted_bare, hm.bare, ← map_counted_bare]
  have hsettled := settled_rows hv hrows
  have hcols := complete_iff hcols'
  have hsame : ProcessColumn.failCount ∈ m.processes.columns ∨ ProcessColumn.fileCount ∉ m.processes.columns →
      (u.processes.rows = w.processes.rows ↔ (.fileCount ∈ m.processes.columns →
        db.Settled ∨ m.unfinished = true ∨ ∀ r ∈ m.processes.rows, m.counted r = r)) := by
    intro hfail
    rw [hrows', hsettled]
    by_cases hfile : ProcessColumn.fileCount ∈ m.processes.columns
    · have hfail : ProcessColumn.failCount ∈ m.processes.columns := hfail.resolve_right fun h => h hfile
      have hmcounted : m.counted = db.counted := counted_congr hm.named
      simp only [hfile, hfail, true_and, and_true, true_implies, hmcounted, hmap]
      by_cases hs : db.Settled
      · have hun : ¬ m.unfinished = true := fun h => Midway.not_settled hv.wellformed hm h hs
        simp [hs, hun, hm.counts hs]
      · by_cases hun : m.unfinished = true
        · simp [hs, hun]
        · have hid := @List.map_inj_left _ _ m.processes.rows db.counted id
          rw [List.map_id, hmap] at hid
          simp only [hs, hun, Bool.false_eq_true, not_false_eq_true, if_true, if_false, false_or]
          exact eq_comm.trans hid
    · have hs : ¬ db.Settled := fun h => hfile (hm.columns h.1)
      simp [hfile, hs, hmap]
  constructor
  · rintro ⟨u', w', hw', hu', hall, -, -, heq⟩
    obtain rfl : w = w' := congrArg Conn.current (Prod.mk.inj (hfin.symm.trans hw')).2
    obtain rfl : u = u' := congrArg Conn.current (Prod.mk.inj (hfin'.symm.trans hu')).2
    obtain ⟨huser, hfail⟩ := hcols.mp hall
    exact ⟨huser, fun hfile => ⟨hfail hfile, (hsame (.inl (hfail hfile))).mp heq hfile⟩⟩
  · rintro ⟨huser, hcounts⟩
    have hall := hcols.mpr ⟨huser, fun hfile => (hcounts hfile).1⟩
    refine ⟨u, w, hfin, hfin', hall, hinterned, fun k => (hnamed' k).trans (hnamed k).symm,
      (hsame ?_).mpr fun h => (hcounts h).2⟩
    by_cases hfile : ProcessColumn.fileCount ∈ m.processes.columns
    · exact .inl (hcounts hfile).1
    · exact .inr hfile

/-- A trace of version 2 with one process and one file. -/
private def oldTrace : TraceFile where
  processes := ⟨∅, [{ pid := 7, ppid := 0, cmdline := [], startTimeUs := 1, endTimeUs := 5, exitCode := 0 }], by
    intro r hr c _
    obtain rfl := List.mem_singleton.mp hr
    cases c <;> rfl⟩
  files := none
  access
    | .file => some (.named true [⟨1, 7, ['a'], 0, some 3, 2⟩])
    | .failed => some (.named true [])
  scratch _ := none

private theorem oldTrace_version : HasVersion .v2 oldTrace := by
  refine ⟨rfl, ⟨true, _, rfl, fun _ => rfl⟩, ⟨[], rfl⟩, ?_, rfl, fun _ => rfl⟩
  rintro (_ | _) b rows h <;> obtain ⟨rfl, rfl⟩ := AccessTable.named.inj (Option.some.inj h) <;> decide

/-- Interrupted after the five columns of version 3, the upgrade is taken up again. -/
theorem wholeStep_recovers : Recovers oldTrace (upgradeSchema.interrupted 5 oldTrace) := by
  apply (upgrade_recovers_iff .v2 oldTrace oldTrace_version 5).mpr
  exact ⟨by decide, by decide⟩

/-- Interrupted after the first of them, it never adds the other four. -/
theorem halfStep_torn : HasVersion .v2 oldTrace ∧ ¬ Recovers oldTrace (upgradeSchema.interrupted 1 oldTrace) := by
  refine ⟨oldTrace_version, ?_⟩
  rintro ⟨u, -, -, hu, hall, -⟩
  have hsys :
      .sysTimeUs ∉ (upgradeSchema.finish (upgradeSchema.interrupted 1 oldTrace)).2.current.processes.columns := by
    decide
  rw [hu] at hsys
  exact hsys (hall _)

end TraceFile
end Bdtrace
