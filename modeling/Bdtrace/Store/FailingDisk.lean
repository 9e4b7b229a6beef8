import Bdtrace.Store.HealthyDisk

/-! What the statements of a connection can do on any disk. -/
namespace Bdtrace.Database

/-- A statement is stored, refused, or answered by a rollback. -/
theorem execute_cases (d : Disk) (s : Statement) (f : Tables → Option Tables) (db : Database) :
    (∃ t, f db.tables = some t ∧ db.execute d s f = (db.store t, true)) ∨
      db.execute d s f = (db, false) ∨ db.execute d s f = (db.rollback, false) := by
  rw [execute]
  cases d s with
  | done =>
    cases hf : f db.tables with
    | some t => exact .inl ⟨t, rfl, rfl⟩
    | none => exact .inr (.inl rfl)
  | failed => exact .inr (.inl rfl)
  | rolledBack => exact .inr (.inr rfl)

/-- A path that is in no cache has a row after it is interned, under the id that is cached then. -/
theorem internPath_cases (d : Disk) (path : Str) (db : Database) :
    (∃ fid, db.internCache path = some fid ∧ db.internPath d path = (db, some fid)) ∨
      (∃ fid, ⟨fid, path⟩ ∈ (db.tables.internInsert path).files ∧
        db.internPath d path = ((db.store (db.tables.internInsert path)).cacheIntern path fid, some fid)) ∨
      ∃ db', db.internPath d path = (db', none) ∧ (db' = db ∨ db' = db.rollback ∨
        db' = db.store (db.tables.internInsert path) ∨ db' = (db.store (db.tables.internInsert path)).rollback) := by
  rw [internPath]
  cases hcache : db.internCache path with
  | some fid => exact .inl ⟨fid, rfl, rfl⟩
  | none =>
    rcases db.execute_cases d .internInsert fun t =>
      some (t.internInsert path) with ⟨t, ht, hstored⟩ | hfailed | hrolled
    · obtain rfl := Option.some.inj ht
      rw [hstored]
      cases hid : db.tables.fileId path with
      | none =>
        refine .inr (.inl ⟨nextRowid (db.tables.files.map (·.id)), ?_, rfl⟩)
        simp [Tables.internInsert, hid]
      | some old =>
        have hsame : db.tables.internInsert path = db.tables := by simp [Tables.internInsert, hid]
        simp only [hsame, store_tables, hid]
        cases d .internSelect with
        | done => exact .inr (.inl ⟨old, Tables.fileId_mem hid, rfl⟩)
        | failed => exact .inr (.inr ⟨_, rfl, .inr (.inr (.inl rfl))⟩)
        | rolledBack => exact .inr (.inr ⟨_, rfl, .inr (.inr (.inr rfl))⟩)
    · rw [hfailed]
      exact .inr (.inr ⟨db, rfl, .inl rfl⟩)
    · rw [hrolled]
      exact .inr (.inr ⟨db.rollback, rfl, .inr (.inl rfl)⟩)

/-! ### What reports success -/

theorem execute_of_true {d : Disk} {s : Statement} {f : Tables → Option Tables} {db : Database}
    (h : (db.execute d s f).2 = true) : db.execute d s f = db.execute Disk.healthy s f := by
  rw [execute] at h ⊢
  rw [execute]
  cases hd : d s with
  | done => rfl
  | failed => simp [hd] at h
  | rolledBack => simp [hd] at h

private theorem internPath_of_some {d : Disk} {path : Str} {db : Database} (h : (db.internPath d path).2.isSome) :
    db.internPath d path = db.internPath Disk.healthy path := by
  rw [internPath] at h ⊢
  rw [internPath]
  cases hcache : db.internCache path with
  | some fid => rfl
  | none =>
    simp only [hcache] at h ⊢
    cases hok : (db.execute d .internInsert fun t => some (t.internInsert path)).2 with
    | false =>
      rw [show db.execute d .internInsert _ = (_, false) from Prod.ext rfl hok] at h
      cases h
    | true =>
      rw [execute_of_true hok]
      simp only [execute, Disk.healthy]
      cases hid : db.tables.fileId path with
      | none => rfl
      | some old =>
        rw [execute_of_true hok] at h
        simp only [execute, Disk.healthy, hid] at h ⊢
        cases hd : d .internSelect with
        | done => rfl
        | failed => simp [hd] at h
        | rolledBack => simp [hd] at h

/-- What both kinds of access do: intern the path, and insert a row that names its id. -/
def recordUnder (d : Disk) (path : Str) (s : Statement) (row : Int → Tables → Tables) (db : Database) :
    Database × Bool :=
  match db.internPath d path with
  | (db', none) => (db', false)
  | (db', some fid) => db'.execute d s fun t => some (row fid t)

/-- An access that reports success met no failing statement. -/
theorem recordUnder_of_true {d : Disk} {path : Str} {s : Statement} {row : Int → Tables → Tables} {db : Database}
    (h : (db.recordUnder d path s row).2 = true) :
    db.recordUnder d path s row = db.recordUnder Disk.healthy path s row := by
  rw [recordUnder] at h ⊢
  rw [recordUnder]
  cases hid : (db.internPath d path).2 with
  | none =>
    rw [show db.internPath d path = (_, none) from Prod.ext rfl hid] at h
    cases h
  | some fid =>
    have hhealthy := internPath_of_some (Option.isSome_iff_exists.mpr ⟨fid, hid⟩)
    rw [hhealthy] at h hid ⊢
    rw [show db.internPath Disk.healthy path = (_, some fid) from Prod.ext rfl hid] at h ⊢
    exact execute_of_true h

/-! ### What is durable outside a transaction -/

/-- Outside a transaction all that the connection reads is durable. -/
def Durable (db : Database) : Prop := db.inTransaction = false → db.committed = db.tables

private theorem durable_store {db : Database} (t : Tables) : (db.store t).Durable := by
  intro hclosed
  rw [store_inTransaction] at hclosed
  simp [store, hclosed]

private theorem durable_rollback {db : Database} : db.rollback.Durable := fun _ => rfl

theorem execute_durable {db : Database} (h : db.Durable) (d : Disk) (s : Statement) (f : Tables → Option Tables) :
    (db.execute d s f).1.Durable := by
  rcases db.execute_cases d s f with ⟨t, -, hstored⟩ | hfailed | hrolled
  · rw [hstored]
    exact durable_store t
  · rw [hfailed]
    exact h
  · rw [hrolled]
    exact durable_rollback

private theorem internPath_durable {db : Database} (h : db.Durable) (d : Disk) (path : Str) :
    (db.internPath d path).1.Durable := by
  have hstored : (db.store (db.tables.internInsert path)).Durable := durable_store _
  rcases db.internPath_cases d path with ⟨fid, -, heq⟩ | ⟨fid, -, heq⟩ | ⟨db', heq, rfl | rfl | rfl | rfl⟩
  · rw [heq]
    exact h
  · rw [heq]
    exact hstored
  · rw [heq]
    exact h
  · rw [heq]
    exact durable_rollback
  · rw [heq]
    exact hstored
  · rw [heq]
    exact durable_rollback

theorem recordUnder_durable {db : Database} (h : db.Durable) (d : Disk) (path : Str) (s : Statement)
    (row : Int → Tables → Tables) : (db.recordUnder d path s row).1.Durable := by
  have hinterned := internPath_durable h d path
  rw [recordUnder]
  split
  · rename_i heq
    rwa [heq] at hinterned
  · rename_i heq
    rw [heq] at hinterned
    exact execute_durable hinterned d s _

theorem beginTransaction_durable {db : Database} (h : db.Durable) (d : Disk) : (db.beginTransaction d).1.Durable := by
  rw [beginTransaction]
  cases d .begin with
  | done =>
    by_cases hopen : db.inTransaction
    · simpa [hopen] using h
    · simp [hopen, Durable]
  | failed => exact h
  | rolledBack => exact durable_rollback

theorem commitTransaction_durable {db : Database} (h : db.Durable) (d : Disk) : (db.commitTransaction d).1.Durable := by
  rw [commitTransaction]
  cases d .commit with
  | done =>
    by_cases hopen : db.inTransaction
    · simp [hopen, Durable]
    · simpa [hopen] using h
  | failed => exact h
  | rolledBack => exact durable_rollback

end Bdtrace.Database
