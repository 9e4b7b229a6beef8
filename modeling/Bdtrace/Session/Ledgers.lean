import Bdtrace.Session.IncarnationIds

/-! What a prefix of the events promises about the rows, event by event. -/
namespace Bdtrace

/-- Every id of an access row has a row in `processes`. -/
def Tables.Referenced (t : Tables) : Prop := ∀ x ∈ t.accessPids, x ∈ t.pids

instance (t : Tables) : Decidable t.Referenced := inferInstanceAs (Decidable (∀ x ∈ t.accessPids, x ∈ t.pids))

/-- What a prefix of the events promises about the rows: the ids started, and the id between its
delete and its insert. -/
structure Ledger where
  started : Set Int := ∅
  gap : Option Int := none

namespace Ledger

/-- Events follow the protocol: only the re-insert closes a gap, and ids are used after their start. -/
def Accepts (L : Ledger) : QueuedEvent → Prop
  | .procStart proc => L.gap = none ∨ L.gap = some proc.pid
  | ev => L.gap = none ∧ ev.pid ∈ L.started

def add (L : Ledger) : QueuedEvent → Ledger
  | .procStart proc => { started := insert proc.pid L.started, gap := none }
  | .deleteProc pid => { L with gap := some pid }
  | _ => L

def addAll (L : Ledger) (es : List QueuedEvent) : Ledger := es.foldl add L

def AcceptsAll : Ledger → List QueuedEvent → Prop
  | _, [] => True
  | L, ev :: es => L.Accepts ev ∧ (L.add ev).AcceptsAll es

theorem acceptsAll_append (L : Ledger) (es fs : List QueuedEvent) :
    L.AcceptsAll (es ++ fs) ↔ L.AcceptsAll es ∧ (L.addAll es).AcceptsAll fs := by
  induction es generalizing L with
  | nil => simp [AcceptsAll, addAll]
  | cons ev es ih => simp [AcceptsAll, addAll, ih, and_assoc]

theorem addAll_append (L : Ledger) (es fs : List QueuedEvent) :
    L.addAll (es ++ fs) = (L.addAll es).addAll fs := List.foldl_append

/-- The tables keep the promise: started ids have rows and access rows have processes, but for the gap. -/
structure Kept (L : Ledger) (t : Tables) : Prop where
  rows : ∀ x ∈ L.started, L.gap ≠ some x → x ∈ t.pids
  accesses : ∀ x ∈ t.accessPids, x ∈ t.pids ∨ L.gap = some x

theorem Kept.referenced {L : Ledger} {t : Tables} (h : L.Kept t) (hg : L.gap = none) : t.Referenced :=
  fun x hx => (h.accesses x hx).resolve_right (by simp [hg])

section Changes
variable {L : Ledger} {t t' : Tables} {pid : Int} (h : L.Kept t)
include h

/-- The row of `pid` is inserted, or it is there already. -/
private theorem Kept.inserted (hacc : L.gap = none ∨ L.gap = some pid)
    (hpids : ∀ x, x ∈ t'.pids ↔ x ∈ t.pids ∨ x = pid) (hids : ∀ x ∈ t'.accessPids, x ∈ t.accessPids) :
    Kept { started := insert pid L.started, gap := none } t' := by
  have hclose : ∀ x, L.gap = some x → x = pid := fun x hx => by
    rcases hacc with hgap | hgap <;> rw [hgap] at hx
    · simp at hx
    · exact (Option.some.inj hx).symm
  refine ⟨fun x hx _ => (hpids x).mpr ?_, fun x hx => .inl ((hpids x).mpr ?_)⟩
  · rcases hx with rfl | hx
    · exact .inr rfl
    · by_cases hg : L.gap = some x
      · exact .inr (hclose x hg)
      · exact .inl (h.rows x hx hg)
  · exact (h.accesses x (hids x hx)).imp_right (hclose x)

/-- The rows keep their ids, and any new access is one of a process started. -/
private theorem Kept.recorded (hacc : L.gap = none ∧ pid ∈ L.started) (hpids : t'.pids = t.pids)
    (hids : ∀ x ∈ t'.accessPids, x ∈ t.accessPids ∨ x = pid) : L.Kept t' := by
  refine ⟨fun x hx hg => hpids ▸ h.rows x hx hg, fun x hx => ?_⟩
  rw [hpids]
  rcases hids x hx with hx | rfl
  · exact h.accesses x hx
  · exact .inl (h.rows _ hacc.2 (by simp [hacc.1]))

/-- The row of `pid` is deleted. -/
private theorem Kept.deleted (hgap : L.gap = none) (hpids : ∀ x, x ∈ t'.pids ↔ x ∈ t.pids ∧ x ≠ pid)
    (hids : ∀ x ∈ t'.accessPids, x ∈ t.accessPids) : Kept { L with gap := some pid } t' := by
  refine ⟨fun x hx hg => (hpids x).mpr ⟨h.rows x hx (by simp [hgap]), ?_⟩, fun x hx => ?_⟩
  · rintro rfl
    exact hg rfl
  · have hrow := (h.accesses x (hids x hx)).resolve_right (by simp [hgap])
    by_cases hxp : x = pid
    · exact .inr (congrArg some hxp.symm)
    · exact .inl ((hpids x).mpr ⟨hrow, hxp⟩)

end Changes

/-- The ledger of the events agrees with the book of the calls. -/
structure Matches (L : Ledger) (b : Book) : Prop where
  started : ∀ i, b.Begun i → i.id ∈ L.started
  gap : L.gap = b.pending.map fun p => (b.current p).id

private theorem matches_start {L : Ledger} {b : Book} (h : L.Matches b) {rec r : ProcessRecord}
    (ha : b.Allows (.processStart rec)) (hid : r.pid = ((b.note (.processStart rec)).current rec.pid).id) :
    L.Accepts (.procStart r) ∧ (L.add (.procStart r)).Matches (b.note (.processStart rec)) := by
  have hdone : (b.note (.processStart rec)).pending = none := by
    simp only [Book.note]
    split
    · rfl
    · exact ha.resolve_right ‹_›
  refine ⟨?_, fun i hi => ?_, by rw [hdone]; rfl⟩
  · rcases ha with hn | hs
    · exact .inl (by rw [h.gap, hn]; rfl)
    · have hcur : (b.note (.processStart rec)).current rec.pid = b.current rec.pid := by
        simp [Book.note, hs, Book.current]
      exact .inr (by rw [h.gap, hs, hid, hcur]; rfl)
  · rcases (b.begun_note _ i).mp hi with hi | hi
    · exact Set.mem_insert_of_mem _ (h.started i hi)
    · simp only [Book.opens] at hi
      split at hi
      · simp at hi
      · rename_i hnp
        obtain rfl := List.mem_singleton.mp hi
        have hcur : (b.note (.processStart rec)).current rec.pid = ⟨rec.pid, b.begun rec.pid⟩ := by
          simp [Book.note, hnp, Book.current]
        rw [← hcur, ← hid]
        exact Set.mem_insert _ _

/-- The event of an allowed call is accepted and keeps ledger and book in agreement. -/
theorem matches_call {L : Ledger} {b : Book} {s : TraceSession} (h : L.Matches b) (ht : s.Tracks b)
    {c : SessionCall} (ha : b.Allows c) :
    L.AcceptsAll (s.call false c).2.toList ∧ (L.addAll (s.call false c).2.toList).Matches (b.note c) := by
  obtain ⟨-, hev⟩ := TraceSession.call_tracks ht ha.admits
  generalize hx : ((b.note c).current c.pid).id = x at hev
  cases c with
  | processStart rec =>
    simp only [TraceSession.Foretold] at hev
    rw [hev]
    obtain ⟨hacc, hm⟩ := matches_start h ha (r := { rec with
      pid := x, ppid := (s.call false (.processStart rec)).1.currentSynth rec.ppid }) hx.symm
    exact ⟨⟨hacc, trivial⟩, hm⟩
  | processExit pid e =>
    have hknown : x ∈ L.started := hx ▸ h.started _ (Book.current_begun ha.2)
    simp only [TraceSession.Foretold] at hev
    rw [hev]
    exact ⟨⟨⟨by rw [h.gap, ha.1]; rfl, hknown⟩, trivial⟩, h⟩
  | fileAccess rec =>
    have hknown : x ∈ L.started := hx ▸ h.started _ (Book.current_begun ha.2)
    rcases hev with hev | hev <;> rw [hev]
    · exact ⟨trivial, h⟩
    · exact ⟨⟨⟨by rw [h.gap, ha.1]; rfl, hknown⟩, trivial⟩, h⟩
  | failedAccess rec =>
    have hknown : x ∈ L.started := hx ▸ h.started _ (Book.current_begun ha.2)
    rcases hev with hev | hev <;> rw [hev]
    · exact ⟨trivial, h⟩
    · exact ⟨⟨⟨by rw [h.gap, ha.1]; rfl, hknown⟩, trivial⟩, h⟩
  | deleteProcess pid =>
    have hknown : x ∈ L.started := hx ▸ h.started _ (Book.current_begun ha.2)
    simp only [TraceSession.Foretold] at hev
    rw [hev]
    refine ⟨⟨⟨by rw [h.gap, ha.1]; rfl, hknown⟩, trivial⟩, h.started, ?_⟩
    rw [← hx]
    rfl

end Ledger

/-! ### One applied event -/

namespace Writer
variable {w : Writer} {L : Ledger} {ev : QueuedEvent}

theorem pids_of_applied {w' : Writer} (ha : Applied ev w w') :
    w'.db.tables.pids = (ev.onProcesses w.db.tables.processes).map (·.pid) := by
  rw [Tables.pids, ha.processes]

/-- An accepted event keeps the ledger's promise, refused or not. -/
theorem applied_kept {w' : Writer} (ha : Applied ev w w') (hk : L.Kept w.db.tables) (hacc : L.Accepts ev) :
    (L.add ev).Kept w'.db.tables := by
  have hpids := pids_of_applied ha
  have hids := ha.accessPids
  cases ev with
  | procStart proc =>
    refine hk.inserted hacc (fun x => ?_) fun x hx => ?_
    · rw [hpids]
      simp only [QueuedEvent.onProcesses]
      split
      · rename_i hmem
        exact ⟨.inl, fun h => h.elim (fun h => h) (fun h => h ▸ hmem)⟩
      · simp [Tables.pids, ProcessRecord.bound]
    · rw [hids] at hx
      simpa [QueuedEvent.access, QueuedEvent.failure] using hx
  | procExit pid e =>
    refine hk.recorded hacc (hpids.trans (Tables.updateProcessExit_pids pid e w.db.tables)) fun x hx => .inl ?_
    rw [hids] at hx
    simpa [QueuedEvent.access, QueuedEvent.failure] using hx
  | fileAccess fa =>
    refine hk.recorded hacc hpids fun x hx => ?_
    rw [hids] at hx
    refine hx.imp_right fun hx => ?_
    simpa [QueuedEvent.access, QueuedEvent.failure, QueuedEvent.pid, FileAccessRecord.stored] using hx
  | failedAccess failed =>
    refine hk.recorded hacc hpids fun x hx => ?_
    rw [hids] at hx
    refine hx.imp_right fun hx => ?_
    simpa [QueuedEvent.access, QueuedEvent.failure, QueuedEvent.pid, FailedAccessRecord.stored] using hx
  | deleteProc pid =>
    refine hk.deleted hacc.1 (fun x => ?_) fun x hx => ?_
    · rw [hpids.trans (Tables.deleteProcess_pids pid w.db.tables)]
      simp
    · rw [hids] at hx
      simpa [QueuedEvent.access, QueuedEvent.failure] using hx

/-- The event that stops writing is a refused start, and a start leaves no gap. -/
theorem gap_of_fatal {w' : Writer} (ha : Applied ev w w') (hf : w'.hasFatalErrors = true) :
    (L.add ev).gap = none := by
  have hcons := ha.consecutiveErrors
  simp only [hasFatalErrors, decide_eq_true_eq] at hf
  cases ev with
  | procStart proc => rfl
  | _ =>
    rw [hcons] at hf
    simp [QueuedEvent.refused] at hf

end Writer

end Bdtrace
