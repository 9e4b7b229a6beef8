import Bdtrace.General.Runs
import Bdtrace.Session.Pipeline

/-! Which process a kernel pid stands for at each call, read off the calls alone, and the
ids that the generations give to these processes. -/
namespace Bdtrace

/-- The `k`-th process that the tracer reported under a kernel pid. -/
structure Incarnation where
  pid : Int
  k : Nat
  deriving DecidableEq, Repr

/-- The generation held in `pid_gen_` for the `k`-th process of a pid. -/
def generation : Nat → Int
  | 0 => 0
  | k + 1 => int32 (generation k + 1)

def Incarnation.id (i : Incarnation) : Int := synthId i.pid (generation i.k)

/-- What the calls made so far say about each kernel pid. -/
structure Book where
  begun : Int → Nat := fun _ => 0
  pending : Option Int := none

namespace Book

/-- The tracer's protocol: a process begins with its start, and an exec is a delete directly
followed by a start of the same pid. Exits may be missing. -/
def Allows (b : Book) : SessionCall → Prop
  | .processStart rec => b.pending = none ∨ b.pending = some rec.pid
  | c => b.pending = none ∧ 0 < b.begun c.pid

instance (b : Book) : (c : SessionCall) → Decidable (b.Allows c)
  | .processStart rec => inferInstanceAs (Decidable (b.pending = none ∨ b.pending = some rec.pid))
  | .processExit pid _ => inferInstanceAs (Decidable (b.pending = none ∧ 0 < b.begun pid))
  | .fileAccess rec => inferInstanceAs (Decidable (b.pending = none ∧ 0 < b.begun rec.pid))
  | .failedAccess rec => inferInstanceAs (Decidable (b.pending = none ∧ 0 < b.begun rec.pid))
  | .deleteProcess pid => inferInstanceAs (Decidable (b.pending = none ∧ 0 < b.begun pid))

/-- What the session's maps can follow: an exit or an access may also come before the start of its
process is reported. -/
def Admits (b : Book) : SessionCall → Prop
  | .processStart rec => b.pending = none ∨ b.pending = some rec.pid
  | .deleteProcess pid => b.pending = none ∧ 0 < b.begun pid
  | _ => b.pending = none

theorem Allows.admits {b : Book} {c : SessionCall} (h : b.Allows c) : b.Admits c := by
  cases c with
  | processStart rec => exact h
  | deleteProcess pid => exact h
  | _ => exact h.1

def note (b : Book) : SessionCall → Book
  | .processStart rec =>
    if b.pending = some rec.pid then { b with pending := none }
    else { b with begun := Function.update b.begun rec.pid (b.begun rec.pid + 1) }
  | .deleteProcess pid => { b with pending := some pid }
  | _ => b

def noteAll (b : Book) (cs : List SessionCall) : Book := Runs.run note b cs

/-- The process that a kernel pid stands for now. -/
def current (b : Book) (pid : Int) : Incarnation := ⟨pid, b.begun pid - 1⟩

def Begun (b : Book) (i : Incarnation) : Prop := i.k < b.begun i.pid

instance (b : Book) (i : Incarnation) : Decidable (b.Begun i) := inferInstanceAs (Decidable (_ < _))

/-- `P` holds at every call of the list, with the book as it stands there. -/
abbrev Along (P : Book → SessionCall → Prop) : Book → List SessionCall → Prop := Runs.Along note P

/-- Every call of the list is allowed where it is made. -/
abbrev Protocol : Book → List SessionCall → Prop := Along Allows

/-- Every call of the list is admitted where it is made. -/
abbrev Admitted : Book → List SessionCall → Prop := Along Admits

theorem Protocol.admitted {b : Book} {cs : List SessionCall} (h : b.Protocol cs) : b.Admitted cs :=
  Runs.Along.imp (fun _ _ => Allows.admits) h

/-- The process that begins with a call, if one does. -/
def opens (b : Book) : SessionCall → List Incarnation
  | .processStart rec => if b.pending = some rec.pid then [] else [⟨rec.pid, b.begun rec.pid⟩]
  | _ => []

/-- The processes that begin during the calls, in order. -/
def beginning (b : Book) : List SessionCall → List Incarnation
  | [] => []
  | c :: cs => b.opens c ++ (b.note c).beginning cs

@[simp] theorem noteAll_nil (b : Book) : b.noteAll [] = b := rfl

@[simp] theorem noteAll_cons (b : Book) (c : SessionCall) (cs : List SessionCall) :
    b.noteAll (c :: cs) = (b.note c).noteAll cs := rfl

theorem noteAll_append (b : Book) (cs ds : List SessionCall) :
    b.noteAll (cs ++ ds) = (b.noteAll cs).noteAll ds := List.foldl_append

theorem along_append {P : Book → SessionCall → Prop} (b : Book) (cs ds : List SessionCall) :
    Along P b (cs ++ ds) ↔ Along P b cs ∧ Along P (b.noteAll cs) ds := Runs.along_append b cs ds

private theorem begun_note_le (b : Book) (c : SessionCall) (pid : Int) : b.begun pid ≤ (b.note c).begun pid := by
  cases c with
  | processStart rec =>
    simp only [note]
    split
    · exact le_rfl
    · by_cases h : pid = rec.pid
      · subst h
        simp
      · simp [Function.update_of_ne h]
  | _ => exact le_rfl

private theorem begun_noteAll_le (b : Book) (cs : List SessionCall) (pid : Int) :
    b.begun pid ≤ (b.noteAll cs).begun pid := by
  induction cs generalizing b with
  | nil => exact le_rfl
  | cons c cs ih => exact (b.begun_note_le c pid).trans (ih (b.note c))

theorem Begun.noteAll {b : Book} {i : Incarnation} (h : b.Begun i) (cs : List SessionCall) :
    (b.noteAll cs).Begun i := h.trans_le (b.begun_noteAll_le cs i.pid)

theorem current_begun {b : Book} {pid : Int} (h : 0 < b.begun pid) : b.Begun (b.current pid) := by
  simp only [Begun, current]
  omega

theorem begun_note (b : Book) (c : SessionCall) (i : Incarnation) :
    (b.note c).Begun i ↔ b.Begun i ∨ i ∈ b.opens c := by
  cases c with
  | processStart rec =>
    by_cases hp : b.pending = some rec.pid
    · simp [note, opens, hp, Begun]
    · obtain ⟨p, k⟩ := i
      by_cases h : p = rec.pid
      · subst h
        simp [note, opens, hp, Begun]
        omega
      · simp [note, opens, hp, Begun, h]
  | _ => simp [note, opens, Begun]

/-- The processes a book has counted are those it began with and those that began since. -/
theorem begun_noteAll (b : Book) (cs : List SessionCall) (i : Incarnation) :
    (b.noteAll cs).Begun i ↔ b.Begun i ∨ i ∈ b.beginning cs := by
  induction cs generalizing b with
  | nil => simp [beginning]
  | cons c cs ih => rw [noteAll_cons, ih, begun_note, beginning, List.mem_append, or_assoc]

theorem beginning_nodup (b : Book) (cs : List SessionCall) :
    (b.beginning cs).Nodup ∧ ∀ i ∈ b.beginning cs, ¬ b.Begun i := by
  induction cs generalizing b with
  | nil => simp [beginning]
  | cons c cs ih =>
    obtain ⟨hnd, hnew⟩ := ih (b.note c)
    have hopens : (b.opens c).Nodup ∧ ∀ i ∈ b.opens c, ¬ b.Begun i := by
      cases c with
      | processStart rec => simp only [opens]; split <;> simp [Begun]
      | _ => simp [opens]
    refine ⟨List.nodup_append.mpr ⟨hopens.1, hnd, ?_⟩, fun i hi => ?_⟩
    · rintro i hi j hj rfl
      exact hnew i hj ((b.begun_note c i).mpr (.inr hi))
    · rcases List.mem_append.mp hi with hi | hi
      · exact hopens.2 i hi
      · exact fun hb => hnew i hi ((b.begun_note c i).mpr (.inl hb))

end Book

/-! ### The session's maps keep the book -/

/-- `pid_gen_` and `expect_reinsert_` hold exactly what the book says. -/
structure TraceSession.Tracks (s : TraceSession) (b : Book) : Prop where
  pidGen : ∀ p, s.pidGen p = if b.begun p = 0 then none else some (generation (b.begun p - 1))
  expectReinsert : ∀ p, p ∈ s.expectReinsert ↔ b.pending = some p
  pending : ∀ p, b.pending = some p → 0 < b.begun p

namespace TraceSession
variable {s : TraceSession} {b : Book}

theorem tracks_fresh : Tracks {} {} := ⟨fun _ => rfl, fun p => by simp, fun p h => by simp at h⟩

theorem Tracks.currentSynth (h : s.Tracks b) (p : Int) : s.currentSynth p = (b.current p).id := by
  by_cases hp : b.begun p = 0
  · simp only [TraceSession.currentSynth, h.pidGen, hp, if_true, Book.current, Incarnation.id]
    rfl
  · simp only [TraceSession.currentSynth, h.pidGen, hp, if_false, Book.current, Incarnation.id]

/-- The event of a call about the process with id `x`: only an access may be missing, when it was
seen before. -/
def Foretold (x : Int) (s' : TraceSession) : SessionCall → Option QueuedEvent → Prop
  | .processStart rec, ev => ev = some (.procStart { rec with pid := x, ppid := s'.currentSynth rec.ppid })
  | .processExit _ e, ev => ev = some (.procExit x e)
  | .fileAccess rec, ev => ev = none ∨ ev = some (.fileAccess { rec with pid := x })
  | .failedAccess rec, ev => ev = none ∨ ev = some (.failedAccess { rec with pid := x })
  | .deleteProcess _, ev => ev = some (.deleteProc x)

theorem Foretold.pid_eq {x : Int} {s' : TraceSession} {c : SessionCall} {ev : QueuedEvent}
    (h : Foretold x s' c (some ev)) : ev.pid = x := by
  cases c
  all_goals
    simp only [Foretold, reduceCtorEq, false_or, Option.some.injEq] at h
    subst h
    rfl

private theorem start_tracks (h : s.Tracks b) (rec : ProcessRecord)
    (ha : b.pending = none ∨ b.pending = some rec.pid) :
    (s.onProcessStart false rec).1.Tracks (b.note (.processStart rec)) := by
  simp only [onProcessStart, Bool.false_eq_true, if_false, eraseSeen, beginIncarnation, Book.note, h.pidGen,
    h.expectReinsert]
  by_cases hp : b.pending = some rec.pid
  · -- exec re-image: only the expectation goes
    have hb := h.pending _ hp
    have hne : b.begun rec.pid ≠ 0 := by omega
    simp only [hp, hne, if_true, if_false]
    refine ⟨h.pidGen, fun p => ?_, fun p hq => by simp at hq⟩
    simp only [Finset.mem_erase, h.expectReinsert, hp, Option.some.injEq]
    constructor
    · rintro ⟨hne, rfl⟩
      exact absurd rfl hne
    · exact fun hc => by cases hc
  · have hnone : b.pending = none := ha.resolve_right hp
    by_cases hb : b.begun rec.pid = 0
    all_goals
      simp only [hb, hp, if_true, if_false]
      refine ⟨fun p => ?_, h.expectReinsert, fun p hq => by simp [hnone] at hq⟩
      by_cases hpr : p = rec.pid
    · subst hpr
      simp [generation]
    · simp [Function.update_of_ne hpr, h.pidGen]
    · subst hpr
      have hs : generation (b.begun rec.pid) = int32 (generation (b.begun rec.pid - 1) + 1) := by
        rw [← generation, Nat.succ_eq_add_one, Nat.sub_add_cancel (by omega)]
      simp [hs]
    · simp [Function.update_of_ne hpr, h.pidGen]

private theorem Tracks.of_maps {t : TraceSession} (h : s.Tracks b) (hg : t.pidGen = s.pidGen)
    (he : t.expectReinsert = s.expectReinsert) : t.Tracks b :=
  ⟨fun p => by rw [hg, h.pidGen], fun p => by rw [he, h.expectReinsert], h.pending⟩

/-- One admitted call keeps the session in step with the book, and its event carries the id of the
process its pid then stands for. -/
theorem call_tracks (h : s.Tracks b) {c : SessionCall} (ha : b.Admits c) :
    (s.call false c).1.Tracks (b.note c) ∧
      Foretold ((b.note c).current c.pid).id (s.call false c).1 c (s.call false c).2 := by
  cases c with
  | processStart rec =>
    have ht := start_tracks h rec ha
    have hid := ht.currentSynth rec.pid
    refine ⟨ht, ?_⟩
    simp only [SessionCall.pid, ← hid]
    rfl
  | processExit pid e =>
    have hid := h.currentSynth pid
    refine ⟨⟨h.pidGen, fun p => ?_, h.pending⟩, ?_⟩
    · have hnone : b.pending = none := ha
      simp [call, onProcessExit, eraseSeen, h.expectReinsert, hnone, Book.note]
    · simp only [SessionCall.pid, Book.note, ← hid]
      rfl
  | fileAccess rec =>
    have hid := h.currentSynth rec.pid
    simp only [call, SessionCall.pid, Book.note, ← hid]
    by_cases hm : (accessKey rec, rec.filename) ∈ s.seen rec.pid
    · rw [onFileAccess_seen hm]
      exact ⟨h.of_maps rfl rfl, .inl rfl⟩
    · rw [onFileAccess_new hm]
      exact ⟨h.of_maps rfl rfl, .inr rfl⟩
  | failedAccess rec =>
    have hid := h.currentSynth rec.pid
    simp only [call, SessionCall.pid, Book.note, ← hid]
    by_cases hm : (failedKey rec, rec.filename) ∈ s.seen rec.pid
    · rw [onFailedAccess_seen hm]
      exact ⟨h.of_maps rfl rfl, .inl rfl⟩
    · rw [onFailedAccess_new hm]
      exact ⟨h.of_maps rfl rfl, .inr rfl⟩
  | deleteProcess pid =>
    have hid := h.currentSynth pid
    refine ⟨⟨h.pidGen, fun p => ?_, fun p hp => ?_⟩, ?_⟩
    · simp [call, deleteProcess, h.expectReinsert, ha.1, Book.note, eq_comm]
    · simp only [Book.note, Option.some.injEq] at hp
      exact hp ▸ ha.2
    · have hcur : (b.note (.deleteProcess pid)).current pid = b.current pid := rfl
      simp only [SessionCall.pid, hcur, ← hid]
      rfl

/-- A run of admitted calls keeps the session in step with the book. -/
theorem calls_tracks (h : s.Tracks b) {cs : List SessionCall} (hp : b.Admitted cs) :
    (s.calls cs).1.Tracks (b.noteAll cs) := by
  induction cs generalizing s b with
  | nil => exact h
  | cons c cs ih => exact ih (call_tracks h hp.1).1 hp.2

/-- Every event of a run of admitted calls is foretold by one of them. -/
theorem mem_calls {P : Book → SessionCall → Prop} (h : s.Tracks b) {cs : List SessionCall} (ha : b.Admitted cs)
    (hp : Book.Along P b cs) {ev : QueuedEvent} (hev : ev ∈ (s.calls cs).2) :
    ∃ b' s' c, P b' c ∧ TraceSession.Tracks s' (b'.note c) ∧
      Foretold ((b'.note c).current c.pid).id s' c (some ev) := by
  induction cs generalizing s b with
  | nil => cases hev
  | cons c cs ih =>
    obtain ⟨ht, hfor⟩ := call_tracks h ha.1
    rcases List.mem_append.mp hev with hev | hev
    · rw [Option.mem_toList.mp hev] at hfor
      exact ⟨b, _, c, hp.1, ht, hfor⟩
    · exact ih ht ha.2 hp.2 hev

end TraceSession

/-! ### The rows that a protocol run leaves -/

namespace Book

/-- The ids in use: those of the earlier rows and of the processes begun, except one whose exec is
half done. -/
def InUse (b : Book) (base : List Int) (x : Int) : Prop :=
  (x ∈ base ∨ ∃ i, b.Begun i ∧ i.id = x) ∧ ∀ p, b.pending = some p → x ≠ (b.current p).id

/-- No two processes share an id and none uses the id of an earlier row. -/
def Separate (b : Book) (base : List Int) : Prop :=
  (∀ i j, b.Begun i → b.Begun j → i.id = j.id → i = j) ∧ ∀ i, b.Begun i → i.id ∉ base

theorem Separate.mono {b : Book} {base : List Int} {cs : List SessionCall}
    (h : (b.noteAll cs).Separate base) : b.Separate base :=
  ⟨fun i j hi hj => h.1 i j (hi.noteAll cs) (hj.noteAll cs), fun i hi => h.2 i (hi.noteAll cs)⟩

/-- The keys of `rows` are exactly the ids in use, and the earlier rows are still there. -/
structure Keyed (b : Book) (base : List ProcessRecord) (rows : List ProcessRecord) : Prop where
  nodup : (rows.map (·.pid)).Nodup
  keys : ∀ x, x ∈ rows.map (·.pid) ↔ b.InUse (base.map (·.pid)) x
  kept : rows.filter (fun r => r.pid ∈ base.map (·.pid)) = base

section Start
variable {b : Book} {rec : ProcessRecord} (hpend : ∀ p, b.pending = some p → 0 < b.begun p)
include hpend

private theorem begun_start :
    (b.note (.processStart rec)).Begun ((b.note (.processStart rec)).current rec.pid) := by
  apply current_begun
  simp only [note]
  split
  · exact hpend _ ‹_›
  · simp

/-- The id of a start is not in use: it is new, or the one of the exec half done. -/
private theorem not_inUse_start {base : List Int} (hs : (b.note (.processStart rec)).Separate base) :
    ¬ b.InUse base ((b.note (.processStart rec)).current rec.pid).id := by
  have hcur : (b.note (.processStart rec)).Begun ((b.note (.processStart rec)).current rec.pid) :=
    begun_start hpend
  rintro ⟨hold | ⟨i, hi, hid⟩, hne⟩
  · exact hs.2 _ hcur hold
  · have heq := hs.1 i _ ((b.begun_note _ i).mpr (.inl hi)) hcur hid
    by_cases hp : b.pending = some rec.pid
    · exact hne _ hp (by simp [note, hp, current])
    · subst heq
      simp [note, hp, current, Begun] at hi

/-- A start takes its id into use and no other. -/
private theorem inUse_start (ha : b.Allows (.processStart rec)) (base : List Int) (x : Int) :
    (b.note (.processStart rec)).InUse base x ↔
      b.InUse base x ∨ x = ((b.note (.processStart rec)).current rec.pid).id := by
  have hdone : (b.note (.processStart rec)).pending = none := by
    simp only [note]
    split
    · rfl
    · exact ha.resolve_right ‹_›
  simp only [InUse, hdone, reduceCtorEq, false_implies, implies_true, and_true]
  constructor
  · intro hx
    by_cases hxr : x = ((b.note (.processStart rec)).current rec.pid).id
    · exact .inr hxr
    · refine .inl ⟨?_, fun p hp hxp => hxr ?_⟩
      · rcases hx with hold | ⟨i, hi, hid⟩
        · exact .inl hold
        · rcases (b.begun_note _ i).mp hi with hi | hi
          · exact .inr ⟨i, hi, hid⟩
          · -- the process that begins here is the current one
            simp only [opens] at hi
            split at hi
            · simp at hi
            · rename_i hnp
              obtain rfl := List.mem_singleton.mp hi
              exact absurd (hid.symm.trans (by simp [note, hnp, current])) hxr
      · have hpr : b.pending = some rec.pid := by
          rcases ha with hn | hs'
          · simp [hn] at hp
          · exact hs'
        obtain rfl : rec.pid = p := by simpa [hpr] using hp
        rw [hxp]
        simp [note, hpr, current]
  · rintro (⟨hold | ⟨i, hi, hid⟩, -⟩ | rfl)
    · exact .inl hold
    · exact .inr ⟨i, (b.begun_note _ i).mpr (.inl hi), hid⟩
    · exact .inr ⟨_, begun_start hpend, rfl⟩

private theorem keyed_start {base rows : List ProcessRecord} (h : b.Keyed base rows)
    (ha : b.Allows (.processStart rec)) (hs : (b.note (.processStart rec)).Separate (base.map (·.pid)))
    {r : ProcessRecord} (hr : r.pid = ((b.note (.processStart rec)).current rec.pid).id) :
    r.pid ∉ rows.map (·.pid) ∧ (b.note (.processStart rec)).Keyed base (rows ++ [r.bound]) := by
  have hfresh : r.pid ∉ rows.map (·.pid) := by
    rw [h.keys, hr]
    exact not_inUse_start hpend hs
  refine ⟨hfresh, ?_, fun x => ?_, ?_⟩
  · rw [List.map_append, List.nodup_append]
    refine ⟨h.nodup, by simp, ?_⟩
    rintro a ha c hc rfl
    have hc' : a = r.pid := List.mem_singleton.mp hc
    exact hfresh (hc' ▸ ha)
  · rw [List.map_append, List.mem_append, h.keys, inUse_start hpend ha, ← hr]
    simp [ProcessRecord.bound]
  · have hbase : r.pid ∉ base.map (·.pid) := hr ▸ hs.2 _ (begun_start hpend)
    rw [List.filter_append, h.kept]
    have hdec : decide (r.bound.pid ∈ base.map (·.pid)) = false := decide_eq_false hbase
    simp only [List.filter_cons, hdec, Bool.false_eq_true, if_false, List.filter_nil, List.append_nil]

end Start

/-- One call of a run with separate ids: its event is not refused and keeps the keys. An exit before its
start must find no earlier rows. -/
private theorem keyed_call {b : Book} {base rows : List ProcessRecord} {s : TraceSession} (ht : s.Tracks b)
    (h : b.Keyed base rows) {c : SessionCall} (ha : b.Admits c) (hx : base = [] ∨ b.Allows c)
    (hs : (b.note c).Separate (base.map (·.pid))) :
    Writer.Unrefused rows (s.call false c).2.toList ∧
      (b.note c).Keyed base (Writer.rowsAfter rows (s.call false c).2.toList) := by
  obtain ⟨-, hev⟩ := TraceSession.call_tracks ht ha
  generalize hid : ((b.note c).current c.pid).id = x at hev
  cases c with
  | processStart rec =>
    simp only [TraceSession.Foretold] at hev
    rw [hev]
    obtain ⟨hfresh, hk⟩ := keyed_start ht.pending h ha hs (r := { rec with
      pid := x, ppid := (s.call false (.processStart rec)).1.currentSynth rec.ppid }) hid.symm
    simp only [Option.toList_some, Writer.Unrefused, Writer.rowsAfter, List.foldl_cons, List.foldl_nil,
      QueuedEvent.refused, QueuedEvent.onProcesses, if_neg hfresh, decide_eq_false hfresh, and_self, true_and]
    exact hk
  | processExit pid e =>
    have hnot : x ∉ base.map (·.pid) := by
      rcases hx with rfl | hx
      · simp
      · exact hid ▸ hs.2 _ (current_begun hx.2)
    simp only [TraceSession.Foretold] at hev
    simp only [hev, Option.toList_some, Writer.Unrefused, Writer.rowsAfter, List.foldl_cons, List.foldl_nil,
      QueuedEvent.refused, QueuedEvent.onProcesses, and_self, true_and, note]
    have hkeys := Tables.updateProcessExit_pids x e { processes := rows }
    simp only [Tables.pids, Tables.updateProcessExit] at hkeys
    refine ⟨by rw [hkeys]; exact h.nodup, fun y => by rw [hkeys]; exact h.keys y, ?_⟩
    rw [List.filter_map]
    have hpred : (fun r : ProcessRecord => decide (r.pid ∈ base.map (·.pid))) ∘
        (fun r => if r.pid = x then r.finish e else r) = fun r => decide (r.pid ∈ base.map (·.pid)) := by
      funext r
      simp only [Function.comp_apply]
      split <;> rfl
    rw [hpred, h.kept]
    refine (List.map_congr_left fun r hr => ?_).trans (List.map_id base)
    have hne : r.pid ≠ x := fun he => hnot (he ▸ List.mem_map_of_mem hr)
    simp [hne]
  | fileAccess rec =>
    rcases hev with hev | hev <;> rw [hev] <;> exact ⟨by simp [Writer.Unrefused, QueuedEvent.refused], h⟩
  | failedAccess rec =>
    rcases hev with hev | hev <;> rw [hev] <;> exact ⟨by simp [Writer.Unrefused, QueuedEvent.refused], h⟩
  | deleteProcess pid =>
    have hnot : x ∉ base.map (·.pid) := hid ▸ hs.2 _ (current_begun ha.2)
    simp only [TraceSession.Foretold] at hev
    simp only [hev, Option.toList_some, Writer.Unrefused, Writer.rowsAfter, List.foldl_cons, List.foldl_nil,
      QueuedEvent.refused, QueuedEvent.onProcesses, and_self, true_and, note]
    have hkeys := Tables.deleteProcess_pids x { processes := rows }
    simp only [Tables.pids, Tables.deleteProcess] at hkeys
    refine ⟨by rw [hkeys]; exact h.nodup.filter _, fun y => ?_, ?_⟩
    · have hpn : b.pending = none := ha.1
      rw [hkeys, List.mem_filter, h.keys, ← hid]
      simp only [InUse, hpn, reduceCtorEq, false_implies, implies_true, and_true, Option.some.injEq,
        decide_eq_true_eq, forall_eq', ne_eq]
      rfl
    · rw [List.filter_filter]
      refine (List.filter_congr fun r _ => ?_).trans h.kept
      by_cases hr : r.pid = x
      · simp only [hr, ne_eq, not_true_eq_false, decide_false, Bool.and_false, decide_eq_false hnot]
      · simp only [hr, ne_eq, not_false_eq_true, decide_true, Bool.and_true]

theorem keyed_calls {b : Book} {base rows : List ProcessRecord} {s : TraceSession} (ht : s.Tracks b)
    (h : b.Keyed base rows) {cs : List SessionCall} (hp : b.Admitted cs) (hx : base = [] ∨ b.Protocol cs)
    (hs : (b.noteAll cs).Separate (base.map (·.pid))) :
    Writer.Unrefused rows (s.calls cs).2 ∧ (b.noteAll cs).Keyed base (Writer.rowsAfter rows (s.calls cs).2) := by
  induction cs generalizing s b rows with
  | nil => exact ⟨trivial, h⟩
  | cons c cs ih =>
    have hs' : (b.note c).Separate (base.map (·.pid)) := Separate.mono hs
    obtain ⟨hu, hk⟩ := keyed_call ht h hp.1 (hx.imp_right And.left) hs'
    obtain ⟨hu', hk'⟩ := ih (TraceSession.call_tracks ht hp.1).1 hk hp.2 (hx.imp_right And.right) hs
    refine ⟨(Writer.unrefused_append _ _ _).mpr ⟨hu, hu'⟩, ?_⟩
    simp only [TraceSession.calls, Writer.rowsAfter, List.foldl_append]
    exact hk'

theorem keyed_fresh {base : List ProcessRecord} (h : (base.map (·.pid)).Nodup) : Keyed {} base base := by
  refine ⟨h, fun x => ?_, List.filter_eq_self.mpr fun r hr => ?_⟩
  · simp [InUse, Begun]
  · simpa using ⟨r, hr, rfl⟩

end Book
end Bdtrace
