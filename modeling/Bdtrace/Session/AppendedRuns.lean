import Bdtrace.Session.Deduplication
import Bdtrace.Session.RowOwners

/-! A session that appends its run to the tables of earlier sessions. -/
namespace Bdtrace

/-- The run of `cs` was added to `t`: the earlier rows are there with their counts taken again, each new
process has one row of its own under its id, and the new accesses lie under these ids. -/
structure Appended (t : Tables) (cs : List SessionCall) (final : Tables) : Prop where
  rows : ∃ own, (own.map (·.pid)).Perm ((Book.beginning {} cs).map Incarnation.id) ∧
    final.processes.Perm ((t.processes ++ own).map final.counted)
  accesses : ∃ new, final.accesses = t.accesses ++ new ∧
    (∀ a ∈ new, a.pid ∈ (Book.beginning {} cs).map Incarnation.id) ∧
    ∀ rec, .fileAccess rec ∈ cs → ∃ a ∈ new, a.path = some rec.filename ∧ a.mode = rec.mode.code
  failures : ∃ new, final.failures = t.failures ++ new ∧
    (∀ a ∈ new, a.pid ∈ (Book.beginning {} cs).map Incarnation.id) ∧
    ∀ rec, .failedAccess rec ∈ cs → ∃ a ∈ new, a.path = some rec.filename

namespace Pipeline

/-- Whatever was refused, the committed rows have distinct keys. -/
theorem finalize_pids_nodup {t : Tables} (ht : t.Sound) (hk : t.pids.Nodup) (acts : List PipelineAct) :
    ((opened t).run acts).finalize.committed.pids.Nodup := by
  have hkeep : ∀ (w : Writer) ev, w.Steady ∧ w.db.tables.pids.Nodup →
      (w.applyEvent Disk.healthy ev).Steady ∧ (w.applyEvent Disk.healthy ev).db.tables.pids.Nodup := by
    rintro w ev ⟨h, hn⟩
    refine ⟨Writer.applyEvent_steady h ev, ?_⟩
    cases hf : w.hasFatalErrors with
    | true => rw [Writer.applyEvent_fatal _ hf]; exact hn
    | false =>
      rw [Tables.pids, (Writer.applyEvent_healthy h hf ev).processes]
      exact QueuedEvent.onProcesses_nodup hn ev
  obtain ⟨-, hst, hn⟩ := writer_run hkeep (p := opened t) ⟨Writer.opened_steady ht, hk⟩ acts
  rw [(finalize_eq hst).2, Tables.populateCounts_pids]
  exact hn

/-- Separate ids, as a list of keys. -/
private theorem separate_iff_nodup {base : List Int} (hb : base.Nodup) (cs : List SessionCall) :
    (Book.noteAll {} cs).Separate base ↔ (base ++ (Book.beginning {} cs).map Incarnation.id).Nodup := by
  have hmem : ∀ i, (Book.noteAll {} cs).Begun i ↔ i ∈ Book.beginning {} cs := fun i => by
    rw [Book.begun_noteAll]
    simp [Book.Begun]
  have hnd := (Book.beginning_nodup {} cs).1
  rw [List.nodup_append]
  constructor
  · rintro ⟨hinj, hold⟩
    refine ⟨hb, hnd.map_on fun i hi j hj => hinj i j ((hmem i).mpr hi) ((hmem j).mpr hj), ?_⟩
    rintro x hx y hy rfl
    obtain ⟨i, hi, rfl⟩ := List.mem_map.mp hy
    exact hold i ((hmem i).mpr hi) hx
  · rintro ⟨-, hinj, hold⟩
    refine ⟨fun i j hi hj hij => ?_, fun i hi hx => ?_⟩
    · exact List.inj_on_of_nodup_map hinj ((hmem i).mp hi) ((hmem j).mp hj) hij
    · exact hold _ hx _ (List.mem_map_of_mem ((hmem i).mp hi)) rfl

/-- A run appended without loss had ids of its own. -/
private theorem nodup_of_appended {t final : Tables} {cs : List SessionCall} (h : Appended t cs final)
    (hfinal : final.pids.Nodup) : (t.pids ++ (Book.beginning {} cs).map Incarnation.id).Nodup := by
  obtain ⟨own, hown, hrows⟩ := h.rows
  have hpids : final.pids.Perm (t.pids ++ own.map (·.pid)) := by
    have hmap := hrows.map (·.pid)
    rw [List.map_map, List.map_append] at hmap
    exact hmap
  have hperm := hpids.trans (hown.append_left t.pids)
  exact hperm.nodup_iff.mp hfinal

private theorem access_pid_begun {cs : List SessionCall} (hp : Book.Protocol {} cs) {ev : QueuedEvent}
    (h : ev ∈ (({} : TraceSession).calls cs).2) : ev.pid ∈ (Book.beginning {} cs).map Incarnation.id := by
  suffices ∀ (b : Book) (s : TraceSession), s.Tracks b → b.Protocol cs → ev ∈ (s.calls cs).2 →
      ∃ i, (b.noteAll cs).Begun i ∧ i.id = ev.pid by
    obtain ⟨i, hi, hid⟩ := this {} {} TraceSession.tracks_fresh hp h
    rw [Book.begun_noteAll] at hi
    exact List.mem_map.mpr ⟨i, hi.resolve_left (by simp [Book.Begun]), hid⟩
  clear hp h
  intro b s ht hp h
  induction cs generalizing b s with
  | nil => simp [TraceSession.calls] at h
  | cons c cs ih =>
    obtain ⟨ht', hev⟩ := TraceSession.call_tracks ht hp.1.admits
    rcases List.mem_append.mp h with h | h
    · rw [Option.mem_toList] at h
      rw [h] at hev
      refine ⟨(b.note c).current c.pid, Book.Begun.noteAll (Book.current_begun ?_) cs, hev.pid_eq.symm⟩
      cases c with
      | processStart rec =>
        simp only [Book.note, SessionCall.pid]
        split
        · exact ht.pending _ ‹_›
        · simp
      | _ => exact hp.1.2
    · exact ih _ _ ht' hp.2 h

private theorem mem_own_iff {b : Book} {base rows : List ProcessRecord} (h : b.Keyed base rows)
    (hs : b.Separate (base.map (·.pid))) (hdone : b.pending = none) (x : Int) :
    x ∈ (rows.filter (fun r => !decide (r.pid ∈ base.map (·.pid)))).map (·.pid) ↔
      ∃ i, b.Begun i ∧ i.id = x := by
  have hkey : x ∈ (rows.filter (fun r => !decide (r.pid ∈ base.map (·.pid)))).map (·.pid) ↔
      x ∈ rows.map (·.pid) ∧ x ∉ base.map (·.pid) := by
    constructor
    · rintro hx
      obtain ⟨r, hr, rfl⟩ := List.mem_map.mp hx
      obtain ⟨hr, hnew⟩ := List.mem_filter.mp hr
      exact ⟨List.mem_map_of_mem hr, by simpa using hnew⟩
    · rintro ⟨hx, hnew⟩
      obtain ⟨r, hr, rfl⟩ := List.mem_map.mp hx
      exact List.mem_map_of_mem (List.mem_filter.mpr ⟨hr, by simpa using hnew⟩)
  rw [hkey, h.keys]
  constructor
  · rintro ⟨⟨hold | hnew, -⟩, hx⟩
    · exact absurd hold hx
    · exact hnew
  · rintro ⟨i, hi, rfl⟩
    exact ⟨⟨.inr ⟨i, hi, rfl⟩, fun p hp => by simp [hdone] at hp⟩, hs.2 i hi⟩

private theorem appended_of_nodup {t : Tables} (ht : t.Sound) (hk : t.pids.Nodup) (acts : List PipelineAct)
    (hp : Book.Protocol {} (callsOf acts)) (hdone : (Book.noteAll {} (callsOf acts)).pending = none)
    (hnd : (t.pids ++ (Book.beginning {} (callsOf acts)).map Incarnation.id).Nodup) :
    Appended t (callsOf acts) ((opened t).run acts).finalize.committed := by
  have hsep := (separate_iff_nodup hk (callsOf acts)).mpr hnd
  have hon := onProtocol ht hk hp hsep
  obtain ⟨w, ha, hfin⟩ := finalize_follows hon.follows (Writer.opened_steady ht) rfl hon.unrefused
  obtain ⟨-, -, hrows, hacc, hfail⟩ := ha
  rw [hfin]
  set es := (({} : TraceSession).calls (callsOf acts)).2 with hes
  have hrows' : w.db.tables.processes = Writer.rowsAfter t.processes es := hrows
  refine ⟨⟨(Writer.rowsAfter t.processes es).filter (fun r => !decide (r.pid ∈ t.pids)), ?_, ?_⟩,
    ⟨es.filterMap QueuedEvent.access, hacc, fun a ha => ?_, fun rec hrec => ?_⟩,
    ⟨es.filterMap QueuedEvent.failure, hfail, fun a ha => ?_, fun rec hrec => ?_⟩⟩
  · refine (List.perm_ext_iff_of_nodup ?_ (List.nodup_append.mp hnd).2.1).mpr fun x => ?_
    · exact hon.keyed.nodup.sublist (List.filter_sublist.map _)
    · refine (mem_own_iff hon.keyed hsep hdone x).trans (Iff.trans ?_ List.mem_map.symm)
      exact exists_congr fun i => and_congr_left fun _ => by
        rw [Book.begun_noteAll]
        simp [Book.Begun]
  · rw [Tables.populateCounts_counted]
    refine List.Perm.map _ ?_
    rw [hrows']
    have hpart := List.filter_append_perm (fun r : ProcessRecord => decide (r.pid ∈ t.pids))
      (Writer.rowsAfter t.processes es)
    have hkept : (Writer.rowsAfter t.processes es).filter (fun r => decide (r.pid ∈ t.pids)) = t.processes :=
      hon.keyed.kept
    rw [hkept] at hpart
    exact hpart.symm
  · obtain ⟨ev, hev, hsome⟩ := List.mem_filterMap.mp ha
    exact QueuedEvent.access_pid hsome ▸ access_pid_begun hp hev
  · obtain ⟨before, after, hsplit⟩ := List.append_of_mem hrec
    rw [hes, hsplit]
    obtain ⟨fa, hmem, -, hname, hmode⟩ := TraceSession.calls_stored (hsplit ▸ hp.admitted)
    exact ⟨fa.stored, List.mem_filterMap.mpr ⟨_, hmem, rfl⟩, congrArg some hname, congrArg FileAccessMode.code hmode⟩
  · obtain ⟨ev, hev, hsome⟩ := List.mem_filterMap.mp ha
    exact QueuedEvent.failure_pid hsome ▸ access_pid_begun hp hev
  · obtain ⟨before, after, hsplit⟩ := List.append_of_mem hrec
    rw [hes, hsplit]
    obtain ⟨failed, hmem, -, hname, -⟩ := TraceSession.calls_stored (hsplit ▸ hp.admitted)
    exact ⟨failed.stored, List.mem_filterMap.mpr ⟨_, hmem, rfl⟩, congrArg some hname⟩

/-- A build of one process: its start, one file it writes, its exit. -/
def singleBuild (pid : Int) (cmdline : String) (endTimeUs : Int) : List PipelineAct :=
  [.call (.processStart { pid := pid, ppid := 50, cmdline := cmdline.toList }), .write,
    .call (.fileAccess { pid := pid, filename := "out.o".toList, mode := .write }),
    .call (.processExit pid { endTimeUs := endTimeUs, exitCode := 0 })]

/-- What a first session leaves. -/
def firstBuild : Tables := ((opened {}).run (singleBuild 100 "make" 5)).finalize.committed

/-- The second session's process has the pid of the first one's: it gets no row, and its exit time
goes to the row of the earlier run. -/
theorem second_run_not_appended :
    ¬ Appended firstBuild (callsOf (singleBuild 100 "cc" 9))
        ((opened firstBuild).run (singleBuild 100 "cc" 9)).finalize.committed ∧
      ((opened firstBuild).run (singleBuild 100 "cc" 9)).finalize.committed.processes.map
        (fun r => (r.pid, r.cmdline, r.endTimeUs)) = [(100, "make".toList, 9)] :=
  ⟨fun h => absurd (nodup_of_appended h (finalize_pids_nodup (by decide) (by decide) _)) (by decide), by decide⟩

/-- A run is appended to earlier sessions without loss exactly when the ids of its processes are
distinct and none is already taken. -/
theorem appended_iff {t : Tables} (ht : t.Sound) (hk : t.pids.Nodup) (acts : List PipelineAct)
    (hp : Book.Protocol {} (callsOf acts)) (hdone : (Book.noteAll {} (callsOf acts)).pending = none) :
    Appended t (callsOf acts) ((opened t).run acts).finalize.committed ↔
      (t.pids ++ (Book.beginning {} (callsOf acts)).map Incarnation.id).Nodup :=
  ⟨fun h => nodup_of_appended h (finalize_pids_nodup ht hk acts), appended_of_nodup ht hk acts hp hdone⟩

theorem appended_other_pid : Appended firstBuild (callsOf (singleBuild 200 "cc" 9))
    ((opened firstBuild).run (singleBuild 200 "cc" 9)).finalize.committed :=
  (appended_iff (by decide) (by decide) _ (by decide) (by decide)).mpr (by decide)

end Pipeline
end Bdtrace
