import Bdtrace.Store.Database

/-! What each statement does to the joined tables when the storage layer refuses none. -/
namespace Bdtrace.Database

/-- The tables are sound and every cached id belongs to a row of `files`. -/
structure Sound (db : Database) : Prop where
  tables : db.tables.Sound
  cache : ∀ path fid, db.internCache path = some fid → ⟨fid, path⟩ ∈ db.tables.files

theorem opened_sound {t : Tables} (h : t.Sound) : (opened t).Sound :=
  ⟨h, fun _ _ hc => by simp [opened] at hc⟩

/-- What interning a path may change. -/
structure Interned (path : Str) (db db' : Database) (fid : Int) : Prop where
  tables : ∃ fs, db'.tables = { db.tables with files := db.tables.files ++ fs }
  inTransaction : db'.inTransaction = db.inTransaction
  committed : db.inTransaction = true → db'.committed = db.committed
  sound : db.Sound → db'.Sound ∧ ⟨fid, path⟩ ∈ db'.tables.files

private theorem sound_cacheIntern {db : Database} {path : Str} {fid : Int} (hs : db.Sound)
    (hm : ⟨fid, path⟩ ∈ db.tables.files) : (db.cacheIntern path fid).Sound := by
  refine ⟨hs.tables, fun p i hp => ?_⟩
  by_cases he : p = path
  · subst he
    have hi : fid = i := by simpa [cacheIntern] using hp
    exact hi ▸ hm
  · exact hs.cache p i (by simpa [cacheIntern, Function.update_of_ne he] using hp)

private theorem sound_newFile {db : Database} (hs : db.Sound) (path : Str) :
    (db.store { db.tables with
      files := db.tables.files ++ [⟨nextRowid (db.tables.files.map (·.id)), path⟩] }).Sound := by
  refine ⟨⟨?_, ?_, ?_⟩, ?_⟩
  · have hfresh := Tables.nextRowid_not_mem (db.tables.files.map (·.id))
    simp only [store_tables, List.map_append, List.map_cons, List.map_nil]
    exact List.nodup_append.mpr ⟨hs.tables.fileIds, by simp, by
      rintro a ha b hb rfl
      exact hfresh (List.mem_singleton.mp hb ▸ ha)⟩
  · intro a ha
    have := hs.tables.accessFiles a ha
    simp_all
  · intro a ha
    have := hs.tables.failureFiles a ha
    simp_all
  · intro p i hp
    exact List.mem_append_left _ (hs.cache p i hp)

private theorem internPath_healthy (path : Str) (db : Database) :
    ∃ fid, (db.internPath Disk.healthy path).2 = some fid ∧
      Interned path db (db.internPath Disk.healthy path).1 fid := by
  unfold internPath
  cases hcache : db.internCache path with
  | some fid =>
    exact ⟨fid, rfl, ⟨[], by simp⟩, rfl, fun _ => rfl, fun hs => ⟨hs, hs.cache path fid hcache⟩⟩
  | none =>
    simp only [execute, Disk.healthy]
    cases hid : db.tables.fileId path with
    | none =>
      -- the path is new: the row just appended is the one that gets cached
      have hnew : db.tables.internInsert path = { db.tables with
          files := db.tables.files ++ [⟨nextRowid (db.tables.files.map (·.id)), path⟩] } := by
        simp [Tables.internInsert, hid]
      refine ⟨_, rfl, ?_⟩
      rw [hnew]
      refine ⟨⟨_, rfl⟩, rfl, fun h => store_committed _ _ h, fun hs => ⟨?_, by simp⟩⟩
      exact sound_cacheIntern (sound_newFile hs path) (by simp)
    | some old =>
      have hsame : db.tables.internInsert path = db.tables := by simp [Tables.internInsert, hid]
      have hold := Tables.fileId_mem hid
      simp only [hsame, store_tables, hid]
      refine ⟨old, rfl, ⟨[], by simp⟩, rfl, fun h => store_committed _ _ h, fun hs => ⟨?_, hold⟩⟩
      exact sound_cacheIntern ⟨hs.tables, hs.cache⟩ hold

/-- What one event's statements did: `rows` is now `processes`, `as` and `fs` are the rows added. -/
structure Performed (rows : List ProcessRecord) (as fs : List Tables.StoredAccess) (db db' : Database) :
    Prop where
  inTransaction : db'.inTransaction = db.inTransaction
  committed : db.inTransaction = true → db'.committed = db.committed
  processes : db'.tables.processes = rows
  accesses : db'.tables.accesses = db.tables.accesses ++ as
  failures : db'.tables.failures = db.tables.failures ++ fs
  sound : db'.Sound

theorem unchanged {db : Database} (hs : db.Sound) : Performed db.tables.processes [] [] db db where
  inTransaction := rfl
  committed _ := rfl
  processes := rfl
  accesses := (List.append_nil _).symm
  failures := (List.append_nil _).symm
  sound := hs

theorem store_performed {db : Database} (hs : db.Sound) (rows : List ProcessRecord) :
    Performed rows [] [] db (db.store { db.tables with processes := rows }) where
  inTransaction := rfl
  committed := store_committed _ _
  processes := rfl
  accesses := (List.append_nil _).symm
  failures := (List.append_nil _).symm
  sound := ⟨⟨hs.tables.fileIds, hs.tables.accessFiles, hs.tables.failureFiles⟩, hs.cache⟩

private theorem accesses_append {t : Tables} (hs : t.Sound) (fs : List FileRow) :
    ({ t with files := t.files ++ fs } : Tables).accesses = t.accesses ∧
      ({ t with files := t.files ++ fs } : Tables).failures = t.failures := by
  constructor
  · refine List.map_congr_left fun a ha => ?_
    rw [Tables.pathOf_append (hs.accessFiles a ha)]
  · refine List.map_congr_left fun a ha => ?_
    rw [Tables.pathOf_append (hs.failureFiles a ha)]

theorem insertFileAccess_healthy {db : Database} (hs : db.Sound) (rec : FileAccessRecord) :
    ∃ db', db.insertFileAccess Disk.healthy rec = (db', true) ∧ Performed db.tables.processes
      [⟨rec.pid, some rec.filename, rec.mode.code, rec.fd, rec.timestampUs⟩] [] db db' := by
  obtain ⟨fid, hfid, hin⟩ := internPath_healthy rec.filename db
  obtain ⟨fs, ht⟩ := hin.tables
  obtain ⟨hsound, hmem⟩ := hin.sound hs
  obtain ⟨hacc, hfail⟩ := accesses_append hs.tables fs
  rw [← ht] at hacc hfail
  unfold insertFileAccess
  generalize hdb : (db.internPath Disk.healthy rec.filename).1 = mid at *
  rw [show db.internPath Disk.healthy rec.filename = (mid, some fid) from Prod.ext hdb hfid]
  have hpath := Tables.pathOf_of_mem hsound.tables.fileIds hmem
  refine ⟨_, rfl, hin.inTransaction, fun h => ?_, by simp [Tables.insertFileAccess, ht], ?_, ?_, ?_⟩
  · rw [store_committed _ _ (hin.inTransaction.trans h), hin.committed h]
  · simp only [store_tables, ← hacc]
    simp only [Tables.accesses, Tables.insertFileAccess, List.map_append, List.map_cons, List.map_nil]
    simp only [Tables.pathOf] at hpath ⊢
    rw [hpath]
  · simp only [store_tables, ← hfail, List.append_nil]
    rfl
  · refine ⟨⟨hsound.tables.fileIds, fun a ha => ?_, hsound.tables.failureFiles⟩, hsound.cache⟩
    rcases List.mem_append.mp ha with ha | ha
    · exact hsound.tables.accessFiles a ha
    · rw [List.mem_singleton.mp ha]
      exact List.mem_map.mpr ⟨_, hmem, rfl⟩

theorem insertFailedAccess_healthy {db : Database} (hs : db.Sound) (rec : FailedAccessRecord) :
    ∃ db', db.insertFailedAccess Disk.healthy rec = (db', true) ∧ Performed db.tables.processes
      [] [⟨rec.pid, some rec.filename, rec.mode.code, rec.errnoVal, rec.timestampUs⟩] db db' := by
  obtain ⟨fid, hfid, hin⟩ := internPath_healthy rec.filename db
  obtain ⟨fs, ht⟩ := hin.tables
  obtain ⟨hsound, hmem⟩ := hin.sound hs
  obtain ⟨hacc, hfail⟩ := accesses_append hs.tables fs
  rw [← ht] at hacc hfail
  unfold insertFailedAccess
  generalize hdb : (db.internPath Disk.healthy rec.filename).1 = mid at *
  rw [show db.internPath Disk.healthy rec.filename = (mid, some fid) from Prod.ext hdb hfid]
  have hpath := Tables.pathOf_of_mem hsound.tables.fileIds hmem
  refine ⟨_, rfl, hin.inTransaction, fun h => ?_, by simp [Tables.insertFailedAccess, ht], ?_, ?_, ?_⟩
  · rw [store_committed _ _ (hin.inTransaction.trans h), hin.committed h]
  · simp only [store_tables, ← hacc, List.append_nil]
    rfl
  · simp only [store_tables, ← hfail]
    simp only [Tables.failures, Tables.insertFailedAccess, List.map_append, List.map_cons, List.map_nil]
    simp only [Tables.pathOf] at hpath ⊢
    rw [hpath]
  · refine ⟨⟨hsound.tables.fileIds, hsound.tables.accessFiles, fun a ha => ?_⟩, hsound.cache⟩
    rcases List.mem_append.mp ha with ha | ha
    · exact hsound.tables.failureFiles a ha
    · rw [List.mem_singleton.mp ha]
      exact List.mem_map.mpr ⟨_, hmem, rfl⟩

end Bdtrace.Database
