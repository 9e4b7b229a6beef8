import Bdtrace.Session.FailingWriter
import Bdtrace.Store.TraceFile

/-! Which names the committed access rows join to, when statements fail and transactions are rolled back. -/
namespace Bdtrace

/-- The rows of an access table: their ids, and the files that they name. -/
def Tables.links (t : Tables) : AccessKind → List (Int × Int)
  | .file => t.fileAccesses.map fun a => (a.id, a.fileId)
  | .failed => t.failedAccesses.map fun a => (a.id, a.fileId)

/-- The table and the name of an access event. -/
def QueuedEvent.recordsUnder : QueuedEvent → Option (AccessKind × Str)
  | .fileAccess fa => some (.file, fa.filename)
  | .failedAccess failed => some (.failed, failed.filename)
  | _ => none

/-- The name that each row id was last inserted with. -/
abbrev RowNames := AccessKind → Int → Option Str

namespace RowNames

def note (names : RowNames) (kind : AccessKind) (id : Int) (path : Str) : RowNames :=
  Function.update names kind (Function.update (names kind) id (some path))

/-- After an insert that succeeded, the last row of the table is the new one. -/
def noteLast (names : RowNames) (kind : AccessKind) (path : Str) (performed : Database × Bool) : RowNames :=
  match performed.2, (performed.1.tables.links kind).getLast? with
  | true, some l => names.note kind l.1 path
  | _, _ => names

def notePerformed (names : RowNames) (ev : QueuedEvent) (performed : Database × Bool) : RowNames :=
  match ev.recordsUnder with
  | some (kind, path) => names.noteLast kind path performed
  | none => names

end RowNames

/-- The writer, and the names that its access rows were recorded with. -/
structure Recording where
  writer : Writer
  names : RowNames := fun _ _ => none

/-- What the writer does: it applies an event, or commits what is open. -/
inductive WriterStep where
  | event (d : Disk) (ev : QueuedEvent)
  | commitOpen (d : Disk)

namespace Recording

def step (r : Recording) : WriterStep → Recording
  | .event d ev =>
    { writer := r.writer.applyEvent d ev
      names := if 50 ≤ r.writer.consecutiveErrors then r.names
        else r.names.notePerformed ev ((r.writer.ensureTransaction d).db.perform d ev) }
  | .commitOpen d => { r with writer := r.writer.commitOpen d }

def run (r : Recording) (steps : List WriterStep) : Recording := steps.foldl step r

/-- The session starts on tables that nothing has been recorded in yet. -/
def opened (t : Tables) : Recording := { writer := Writer.opened t }

/-- Every committed row that the session added joins to the name it was recorded with, and no path has two rows. -/
structure JoinsNames (r : Recording) (t : Tables) : Prop where
  joined : ∀ kind id fid, (id, fid) ∈ r.writer.db.committed.links kind → (id, fid) ∈ t.links kind ∨
    ∃ name, r.names kind id = some name ∧ r.writer.db.committed.pathOf fid = some name
  unique : (r.writer.db.committed.files.map (·.path)).Nodup

/-- Where the path of an access has a cached id, its row is still in `files`. -/
def CacheHolds (r : Recording) : WriterStep → Prop
  | .event d ev => ∀ kind path fid, ev.recordsUnder = some (kind, path) → r.writer.db.internCache path = some fid →
      ⟨fid, path⟩ ∈ (r.writer.ensureTransaction d).db.tables.files
  | .commitOpen _ => True

/-- Every step of the run finds it so. -/
def CacheHoldsAlong : Recording → List WriterStep → Prop
  | _, [] => True
  | r, s :: steps => r.CacheHolds s ∧ (r.step s).CacheHoldsAlong steps

end Recording

/-! ### Tables -/

/-- Rows of `files` are keyed by id and by path, and rows that are not among the old ones name the file that they
were recorded with. -/
structure Tables.Linked (old : Tables) (names : RowNames) (t : Tables) : Prop where
  ids : (t.files.map (·.id)).Nodup
  paths : (t.files.map (·.path)).Nodup
  rows : ∀ kind, ∀ l ∈ t.links kind, l ∈ old.links kind ∨ ∃ name, names kind l.1 = some name ∧ ⟨l.2, name⟩ ∈ t.files

namespace Tables
variable {old t u : Tables} {names : RowNames}

theorem Linked.frame (h : Linked old names t) (hfiles : u.files = t.files) (hlinks : u.links = t.links) :
    Linked old names u := by
  refine ⟨hfiles ▸ h.ids, hfiles ▸ h.paths, ?_⟩
  rw [hfiles, hlinks]
  exact h.rows

@[simp] theorem internInsert_links (path : Str) : (t.internInsert path).links = t.links := by
  funext kind
  unfold internInsert
  cases kind <;> split <;> rfl

theorem Linked.internInsert (h : Linked old names t) (path : Str) : Linked old names (t.internInsert path) := by
  by_cases hknown : (t.fileId path).isSome
  · rwa [Tables.internInsert, if_pos hknown]
  · have hnew : path ∉ t.files.map (·.path) := by
      intro hmem
      obtain ⟨f, hf, rfl⟩ := List.mem_map.mp hmem
      apply hknown
      rw [fileId, Option.isSome_map, List.find?_isSome]
      exact ⟨f, hf, decide_eq_true rfl⟩
    refine ⟨?_, ?_, ?_⟩
    · rw [Tables.internInsert, if_neg hknown, List.map_append]
      refine List.nodup_append.mpr ⟨h.ids, List.nodup_singleton _, ?_⟩
      rintro a ha b hb rfl
      exact nextRowid_not_mem _ (List.mem_singleton.mp hb ▸ ha)
    · rw [Tables.internInsert, if_neg hknown, List.map_append]
      refine List.nodup_append.mpr ⟨h.paths, List.nodup_singleton _, ?_⟩
      rintro a ha b hb rfl
      have hpath : a = path := List.mem_singleton.mp hb
      exact hnew (hpath ▸ ha)
    · intro kind l hl
      rw [internInsert_links] at hl
      rcases h.rows kind l hl with hold | ⟨name, hname, hfile⟩
      · exact .inl hold
      · refine .inr ⟨name, hname, ?_⟩
        rw [Tables.internInsert, if_neg hknown]
        exact List.mem_append_left _ hfile

/-- `u` is `t` with one more row in an access table. -/
structure AddsRow (kind : AccessKind) (fid : Int) (t u : Tables) : Prop where
  files : u.files = t.files
  added : u.links kind = t.links kind ++ [(nextRowid ((t.links kind).map Prod.fst), fid)]
  others : ∀ other, other ≠ kind → u.links other = t.links other

private theorem insertFileAccess_adds (fid : Int) (rec : FileAccessRecord) (t : Tables) :
    AddsRow .file fid t (t.insertFileAccess fid rec) := by
  refine ⟨rfl, ?_, fun other hother => ?_⟩
  · simp [links, insertFileAccess, Function.comp_def]
  · cases other with
    | file => exact absurd rfl hother
    | failed => rfl

private theorem insertFailedAccess_adds (fid : Int) (rec : FailedAccessRecord) (t : Tables) :
    AddsRow .failed fid t (t.insertFailedAccess fid rec) := by
  refine ⟨rfl, ?_, fun other hother => ?_⟩
  · simp [links, insertFailedAccess, Function.comp_def]
  · cases other with
    | file => rfl
    | failed => exact absurd rfl hother

/-- A name noted for an id that the tables do not have. -/
theorem Linked.note (h : Linked old names t) {kind : AccessKind} {id : Int} (path : Str)
    (hid : id ∉ (t.links kind).map Prod.fst) : Linked old (names.note kind id path) t := by
  refine ⟨h.ids, h.paths, fun other l hl => ?_⟩
  have hsame : names.note kind id path other l.1 = names other l.1 := by
    by_cases hkind : other = kind
    · subst hkind
      have hne : l.1 ≠ id := fun heq => hid (heq ▸ List.mem_map_of_mem hl)
      rw [RowNames.note, Function.update_self, Function.update_of_ne hne]
    · rw [RowNames.note, Function.update_of_ne hkind]
  rw [hsame]
  exact h.rows other l hl

theorem Linked.addRow (h : Linked old names t) {kind : AccessKind} {fid : Int} {path : Str}
    (hadd : AddsRow kind fid t u)
    (hfile : ⟨fid, path⟩ ∈ t.files) :
    Linked old (names.note kind (nextRowid ((t.links kind).map Prod.fst)) path) u := by
  have hnoted := h.note path (nextRowid_not_mem ((t.links kind).map Prod.fst))
  refine ⟨hadd.files ▸ h.ids, hadd.files ▸ h.paths, fun other l hl => ?_⟩
  rw [hadd.files]
  by_cases hkind : other = kind
  · subst hkind
    rw [hadd.added] at hl
    rcases List.mem_append.mp hl with hl | hl
    · exact hnoted.rows other l hl
    · obtain rfl := List.mem_singleton.mp hl
      refine .inr ⟨path, ?_, hfile⟩
      rw [RowNames.note, Function.update_self, Function.update_self]
  · rw [hadd.others other hkind] at hl
    exact hnoted.rows other l hl

end Tables

/-! ### Statements -/

namespace Database

/-- What the connection reads and what is durable are linked, and every durable row is one that is read. -/
structure Linked (old : Tables) (names : RowNames) (db : Database) : Prop where
  tables : Tables.Linked old names db.tables
  committed : Tables.Linked old names db.committed
  kept : ∀ kind, (db.committed.links kind).map Prod.fst ⊆ (db.tables.links kind).map Prod.fst

variable {old : Tables} {names : RowNames} {db : Database}

theorem Linked.rollback (h : Linked old names db) : Linked old names db.rollback :=
  ⟨h.committed, h.committed, fun _ => List.Subset.refl _⟩

/-- A statement whose tables are linked, and keep the rows. -/
theorem Linked.store (h : Linked old names db) {t : Tables} (ht : Tables.Linked old names t)
    (hrows : ∀ kind, (db.tables.links kind).map Prod.fst ⊆ (t.links kind).map Prod.fst) :
    Linked old names (db.store t) := by
  refine ⟨ht, ?_, fun kind => ?_⟩
  · simp only [Database.store]
    split
    · exact h.committed
    · exact ht
  · simp only [Database.store]
    split
    · exact List.Subset.trans (h.kept kind) (hrows kind)
    · exact List.Subset.refl _

theorem Linked.execute (h : Linked old names db) {d : Disk} {s : Statement} {f : Tables → Option Tables}
    (hf : ∀ t, f db.tables = some t → t.files = db.tables.files ∧ t.links = db.tables.links) :
    Linked old names (db.execute d s f).1 := by
  rcases db.execute_cases d s f with ⟨t, ht, hstored⟩ | hfailed | hrolled
  · obtain ⟨hfiles, hlinks⟩ := hf t ht
    rw [hstored]
    exact h.store (h.tables.frame hfiles hlinks) fun kind => hlinks ▸ List.Subset.refl _
  · rw [hfailed]
    exact h
  · rw [hrolled]
    exact h.rollback

/-- Interning keeps the links, and its id has a row with the path, if a cached id has one. -/
theorem Linked.internPath (h : Linked old names db) (d : Disk) {path : Str}
    (hcache : ∀ fid, db.internCache path = some fid → ⟨fid, path⟩ ∈ db.tables.files) :
    Linked old names (db.internPath d path).1 ∧
      ∀ fid, (db.internPath d path).2 = some fid → ⟨fid, path⟩ ∈ (db.internPath d path).1.tables.files := by
  have hstored : Linked old names (db.store (db.tables.internInsert path)) :=
    h.store (h.tables.internInsert path) fun kind => Tables.internInsert_links path ▸ List.Subset.refl _
  rcases db.internPath_cases d path with ⟨fid, hfid, heq⟩ | ⟨fid, hfile, heq⟩ | ⟨db', heq, hdb⟩
  · rw [heq]
    refine ⟨h, fun fid' hfid' => ?_⟩
    obtain rfl := Option.some.inj hfid'
    exact hcache fid hfid
  · rw [heq]
    refine ⟨⟨hstored.tables, hstored.committed, hstored.kept⟩, fun fid' hfid' => ?_⟩
    obtain rfl := Option.some.inj hfid'
    exact hfile
  · rw [heq]
    refine ⟨?_, fun fid hfid => by cases hfid⟩
    rcases hdb with rfl | rfl | rfl | rfl
    · exact h
    · exact h.rollback
    · exact hstored
    · exact hstored.rollback

/-- A row that is added through an id with the right path is noted under that path. -/
theorem Linked.addRow (h : Linked old names db) {kind : AccessKind} {fid : Int} {path : Str} {t : Tables}
    (hadd : Tables.AddsRow kind fid db.tables t) (hfile : ⟨fid, path⟩ ∈ db.tables.files) :
    Linked old (names.noteLast kind path (db.store t, true)) (db.store t) := by
  have hlast : ((db.store t).tables.links kind).getLast? =
      some (nextRowid ((db.tables.links kind).map Prod.fst), fid) := by
    rw [store_tables, hadd.added, List.getLast?_concat]
  have hfresh : nextRowid ((db.tables.links kind).map Prod.fst) ∉ (db.committed.links kind).map Prod.fst :=
    fun hmem => Tables.nextRowid_not_mem _ (h.kept kind hmem)
  simp only [RowNames.noteLast, hlast]
  have hnoted : Linked old (names.note kind (nextRowid ((db.tables.links kind).map Prod.fst)) path) db :=
    ⟨h.tables.note path (Tables.nextRowid_not_mem _), h.committed.note path hfresh, h.kept⟩
  apply hnoted.store (h.tables.addRow hadd hfile)
  intro other
  by_cases hkind : other = kind
  · subst hkind
    rw [hadd.added, List.map_append]
    exact List.subset_append_left _ _
  · rw [hadd.others other hkind]
    exact List.Subset.refl _

theorem Linked.recordUnder (h : Linked old names db) (d : Disk) {kind : AccessKind} {path : Str} (s : Statement)
    {row : Int → Tables → Tables} (hrow : ∀ fid t, Tables.AddsRow kind fid t (row fid t))
    (hcache : ∀ fid, db.internCache path = some fid → ⟨fid, path⟩ ∈ db.tables.files) :
    Linked old (names.noteLast kind path (db.recordUnder d path s row)) (db.recordUnder d path s row).1 := by
  obtain ⟨hinterned, hfile⟩ := h.internPath d hcache
  rw [Database.recordUnder]
  split
  · rename_i db' heq
    rw [heq] at hinterned
    exact hinterned
  · rename_i db' fid heq
    rw [heq] at hinterned hfile
    rcases db'.execute_cases d s fun t => some (row fid t) with ⟨t, ht, hstored⟩ | hfailed | hrolled
    · obtain rfl := Option.some.inj ht
      rw [hstored]
      exact hinterned.addRow (hrow fid _) (hfile fid rfl)
    · rw [hfailed]
      exact hinterned
    · rw [hrolled]
      exact hinterned.rollback

/-- The statements of one event. -/
theorem Linked.perform (h : Linked old names db) (d : Disk) {ev : QueuedEvent}
    (hcache : ∀ kind path fid, ev.recordsUnder = some (kind, path) → db.internCache path = some fid →
      ⟨fid, path⟩ ∈ db.tables.files) :
    Linked old (names.notePerformed ev (db.perform d ev)) (db.perform d ev).1 := by
  cases ev with
  | procStart proc =>
    apply h.execute
    intro t ht
    rw [Tables.insertProcess] at ht
    split at ht
    · cases ht
    · obtain rfl := Option.some.inj ht
      exact ⟨rfl, by funext kind; cases kind <;> rfl⟩
  | procExit pid x =>
    apply h.execute
    intro t ht
    obtain rfl := Option.some.inj ht
    exact ⟨rfl, by funext kind; cases kind <;> rfl⟩
  | fileAccess fa =>
    exact h.recordUnder d .insertFile (fun fid t => Tables.insertFileAccess_adds fid fa t) fun fid =>
      hcache .file _ fid rfl
  | failedAccess failed =>
    exact h.recordUnder d .insertFailed (fun fid t => Tables.insertFailedAccess_adds fid failed t) fun fid =>
      hcache .failed _ fid rfl
  | deleteProc pid =>
    apply h.execute
    intro t ht
    obtain rfl := Option.some.inj ht
    exact ⟨rfl, by funext kind; cases kind <;> rfl⟩

theorem Linked.beginTransaction (h : Linked old names db) (d : Disk) : Linked old names (db.beginTransaction d).1 := by
  rw [Database.beginTransaction]
  cases d .begin with
  | done =>
    simp only
    split
    · exact h
    · exact ⟨h.tables, h.committed, h.kept⟩
  | failed => exact h
  | rolledBack => exact h.rollback

theorem Linked.commitTransaction (h : Linked old names db) (d : Disk) :
    Linked old names (db.commitTransaction d).1 := by
  rw [Database.commitTransaction]
  cases d .commit with
  | done =>
    simp only
    split
    · exact ⟨h.tables, h.tables, fun _ => List.Subset.refl _⟩
    · exact h
  | failed => exact h
  | rolledBack => exact h.rollback

end Database

/-! ### Runs -/

namespace Recording
variable {t : Tables} {r : Recording}

/-- One step keeps the links, if no cached id that it uses has lost its row. -/
private theorem step_linked (h : Database.Linked t r.names r.writer.db) {s : WriterStep} (hs : r.CacheHolds s) :
    Database.Linked t (r.step s).names (r.step s).writer.db := by
  cases s with
  | event d ev =>
    have hbegun : Database.Linked t r.names (r.writer.ensureTransaction d).db ∧
        (r.writer.ensureTransaction d).db.internCache = r.writer.db.internCache := by
      unfold Writer.ensureTransaction
      split
      · exact ⟨h, rfl⟩
      · refine ⟨h.beginTransaction d, ?_⟩
        simp only [Database.beginTransaction]
        cases d .begin with
        | done =>
          simp only
          split <;> rfl
        | failed => rfl
        | rolledBack => rfl
    have hperformed : Database.Linked t
        (r.names.notePerformed ev ((r.writer.ensureTransaction d).db.perform d ev))
        ((r.writer.ensureTransaction d).db.perform d ev).1 :=
      hbegun.1.perform d fun kind path fid hrec hid => hs kind path fid hrec (by rwa [hbegun.2] at hid)
    simp only [step, Writer.applyEvent_eq]
    split
    · exact h
    · unfold Writer.maybeCommit
      split
      · simp only [Writer.beforeCommit_db]
        exact hperformed.commitTransaction d
      · rw [Writer.beforeCommit_db]
        exact hperformed
  | commitOpen d =>
    simp only [step]
    unfold Writer.commitOpen
    split
    · exact h.commitTransaction d
    · exact h

private theorem run_linked (h : Database.Linked t r.names r.writer.db) {steps : List WriterStep}
    (hs : r.CacheHoldsAlong steps) :
    ∀ before, before <+: steps → Database.Linked t (r.run before).names (r.run before).writer.db := by
  induction steps generalizing r with
  | nil =>
    intro before hbefore
    rw [List.prefix_nil.mp hbefore]
    exact h
  | cons s steps ih =>
    intro before hbefore
    cases before with
    | nil => exact h
    | cons s' before =>
      obtain ⟨rfl, hrest⟩ := List.cons_prefix_cons.mp hbefore
      exact ih (step_linked h hs.1) hs.2 before hrest

/-- As long as no access uses a cached id whose row a rollback took, the rows committed so far join to the names
they were recorded with. -/
theorem run_joinsNames (hids : (t.files.map (·.id)).Nodup) (hpaths : (t.files.map (·.path)).Nodup)
    {steps : List WriterStep} (hsteps : (opened t).CacheHoldsAlong steps) :
    ∀ before, before <+: steps → ((opened t).run before).JoinsNames t := by
  intro before hbefore
  have hold : Tables.Linked t (opened t).names t := ⟨hids, hpaths, fun kind l hl => .inl hl⟩
  have hlinked := run_linked ⟨hold, hold, fun _ => List.Subset.refl _⟩ hsteps before hbefore
  refine ⟨fun kind id fid hrow => ?_, hlinked.committed.paths⟩
  rcases hlinked.committed.rows kind (id, fid) hrow with hnone | ⟨name, hname, hfile⟩
  · exact .inl hnone
  · exact .inr ⟨name, hname, Tables.pathOf_of_mem hlinked.committed.ids hfile⟩

/-- An access of `pid` to a one-letter path. -/
def accessTo (pid : Int) (c : Char) : QueuedEvent := .fileAccess { pid := pid, filename := [c] }

/-- A disk that is full when the statement is written. -/
def fullAt (s : Statement) : Disk := fun s' => if s' = s then .rolledBack else .done

/-- A rollback after which only new paths are used. -/
def spentNames : List WriterStep :=
  [.event Disk.healthy (accessTo 7 'a'), .event (fullAt .insertFile) (accessTo 7 'b'),
    .event Disk.healthy (accessTo 7 'c'), .commitOpen Disk.healthy]

theorem run_joinsNames_spentNames : ((opened {}).run spentNames).JoinsNames {} := by
  have hcache : (opened {}).CacheHoldsAlong spentNames := by
    refine ⟨?_, ?_, ?_, trivial, trivial⟩
    all_goals
      intro kind path fid hrec hid
      obtain ⟨-, rfl⟩ := Prod.mk.inj (Option.some.inj hrec)
      cases hid
  exact run_joinsNames (by decide) (by decide) hcache spentNames (List.prefix_refl spentNames)

/-- A rollback takes the row of a path whose id stays in the cache, and the next new path is given that id. -/
def staleNames : List WriterStep :=
  [.event Disk.healthy (accessTo 7 'a'), .event (fullAt .internInsert) (accessTo 7 'c'),
    .event Disk.healthy (accessTo 8 'a'), .event Disk.healthy (accessTo 8 'b'), .commitOpen Disk.healthy]

theorem staleNames_misjoined :
    ((opened {}).run staleNames).writer.db.committed.links .file = [(1, 1), (2, 1)] ∧
      ((opened {}).run staleNames).names .file 1 = some ['a'] ∧
      ((opened {}).run staleNames).writer.db.committed.pathOf 1 = some ['b'] ∧
      ¬((opened {}).run staleNames).JoinsNames {} := by
  refine ⟨by decide, by decide, by decide, fun h => ?_⟩
  rcases h.joined .file 1 1 (by decide) with hold | ⟨name, hname, hpath⟩
  · cases hold
  · have hnamed : ((opened {}).run staleNames).names .file 1 = some ['a'] := by decide
    have hjoined : ((opened {}).run staleNames).writer.db.committed.pathOf 1 = some ['b'] := by decide
    have heq := (hname.symm.trans hnamed).symm.trans (hpath.symm.trans hjoined)
    exact absurd heq (by decide)

end Recording
end Bdtrace
