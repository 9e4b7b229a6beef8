import Bdtrace.Session.IncarnationIds

/-! The rows that a run of calls writes come from its starts, and what lies under an id that no
call stands for stays as it is. -/
namespace Bdtrace

namespace QueuedEvent

/-- An event leaves the rows under other ids alone. -/
private theorem onProcesses_filter {ev : QueuedEvent} {x : Int} (h : ev.pid ≠ x) (rows : List ProcessRecord) :
    (ev.onProcesses rows).filter (fun r => r.pid = x) = rows.filter fun r => r.pid = x := by
  cases ev with
  | procStart proc =>
    have hb : proc.bound.pid ≠ x := h
    simp only [onProcesses]
    split
    · rfl
    · rw [List.filter_append, List.filter_singleton, decide_eq_false hb, cond_false, List.append_nil]
  | procExit pid e =>
    have hpid : ∀ r : ProcessRecord, (if r.pid = pid then r.finish e else r).pid = r.pid := fun r => by
      split <;> rfl
    simp only [onProcesses, List.filter_map, Function.comp_def, hpid]
    refine (List.map_congr_left fun r hr => ?_).trans (List.map_id _)
    have hr : r.pid = x := of_decide_eq_true (List.mem_filter.mp hr).2
    exact if_neg fun hp => h (hp.symm.trans hr)
  | deleteProc pid =>
    rw [onProcesses, List.filter_filter]
    refine List.filter_congr fun r _ => ?_
    by_cases hr : r.pid = x
    · rw [hr, decide_eq_true rfl, Bool.true_and]
      exact decide_eq_true (Ne.symm h)
    · rw [decide_eq_false hr, Bool.false_and]
  | _ => rfl

/-- The rows hold what the starts gave them. -/
private theorem onProcesses_started {Q : Int → Int → Prop} {ev : QueuedEvent}
    (hev : ∀ proc, ev = .procStart proc → Q proc.pid proc.ppid) {rows : List ProcessRecord}
    (h : ∀ r ∈ rows, Q r.pid r.ppid) : ∀ r ∈ ev.onProcesses rows, Q r.pid r.ppid := by
  intro r hr
  cases ev with
  | procStart proc =>
    simp only [onProcesses] at hr
    split at hr
    · exact h r hr
    · rcases List.mem_append.mp hr with hr | hr
      · exact h r hr
      · rw [List.mem_singleton.mp hr]
        exact hev proc rfl
  | procExit pid e =>
    obtain ⟨r', hr', rfl⟩ := List.mem_map.mp hr
    split
    · exact h r' hr'
    · exact h r' hr'
  | deleteProc pid => exact h r (List.mem_of_mem_filter hr)
  | _ => exact h r hr

theorem onProcesses_nodup {rows : List ProcessRecord} (h : (rows.map (·.pid)).Nodup) (ev : QueuedEvent) :
    ((ev.onProcesses rows).map (·.pid)).Nodup := by
  cases ev with
  | procStart proc =>
    simp only [onProcesses]
    split
    · exact h
    · rename_i hfresh
      rw [List.map_append, List.nodup_append]
      refine ⟨h, by simp, ?_⟩
      rintro a ha c hc rfl
      have hc' : a = proc.pid := List.mem_singleton.mp hc
      exact hfresh (hc' ▸ ha)
  | procExit pid x =>
    have hkeys := Tables.updateProcessExit_pids pid x { processes := rows }
    simp only [Tables.pids, Tables.updateProcessExit] at hkeys
    exact hkeys ▸ h
  | deleteProc pid =>
    have hkeys := Tables.deleteProcess_pids pid { processes := rows }
    simp only [Tables.pids, Tables.deleteProcess] at hkeys
    simp only [onProcesses, hkeys]
    exact h.filter _
  | _ => exact h

theorem access_pid {ev : QueuedEvent} {a : Tables.StoredAccess} (h : ev.access = some a) : a.pid = ev.pid := by
  cases ev with
  | fileAccess fa => exact Option.some.inj h ▸ rfl
  | _ => simp [access] at h

theorem failure_pid {ev : QueuedEvent} {a : Tables.StoredAccess} (h : ev.failure = some a) : a.pid = ev.pid := by
  cases ev with
  | failedAccess failed => exact Option.some.inj h ▸ rfl
  | _ => simp [failure] at h

end QueuedEvent

namespace Writer

theorem rowsAfter_append (rows : List ProcessRecord) (es fs : List QueuedEvent) :
    rowsAfter rows (es ++ fs) = rowsAfter (rowsAfter rows es) fs := List.foldl_append

private theorem rowsAfter_filter {x : Int} {es : List QueuedEvent} (h : ∀ ev ∈ es, ev.pid ≠ x)
    (rows : List ProcessRecord) :
    (rowsAfter rows es).filter (fun r => r.pid = x) = rows.filter fun r => r.pid = x := by
  induction es generalizing rows with
  | nil => rfl
  | cons ev es ih =>
    have hrest := ih (fun e he => h e (List.mem_cons_of_mem _ he)) (ev.onProcesses rows)
    exact hrest.trans (QueuedEvent.onProcesses_filter (h ev List.mem_cons_self) rows)

theorem rowsAfter_started {Q : Int → Int → Prop} {es : List QueuedEvent}
    (hes : ∀ proc, .procStart proc ∈ es → Q proc.pid proc.ppid) {rows : List ProcessRecord}
    (h : ∀ r ∈ rows, Q r.pid r.ppid) : ∀ r ∈ rowsAfter rows es, Q r.pid r.ppid := by
  induction es generalizing rows with
  | nil => exact h
  | cons ev es ih =>
    apply ih fun proc hp => hes proc (List.mem_cons_of_mem _ hp)
    apply QueuedEvent.onProcesses_started _ h
    rintro proc rfl
    exact hes proc List.mem_cons_self

theorem rowsAfter_nodup {rows : List ProcessRecord} (h : (rows.map (·.pid)).Nodup) (es : List QueuedEvent) :
    ((rowsAfter rows es).map (·.pid)).Nodup := by
  induction es generalizing rows with
  | nil => exact h
  | cons ev es ih => exact ih (QueuedEvent.onProcesses_nodup h ev)

end Writer

namespace Book

/-- A start gives its row an id and a parent's id that are related by `Q`. -/
def StartsWith (Q : Int → Int → Prop) (b : Book) : SessionCall → Prop
  | .processStart rec => Q ((b.note (.processStart rec)).current rec.pid).id
      ((b.note (.processStart rec)).current rec.ppid).id
  | _ => True

/-- The call is not about the process with id `x`. -/
def Apart (x : Int) (b : Book) (c : SessionCall) : Prop := ((b.note c).current c.pid).id ≠ x

section
variable {s : TraceSession} {b : Book} {cs : List SessionCall}

theorem started (ht : s.Tracks b) (ha : b.Admitted cs) {Q : Int → Int → Prop} (hq : Along (StartsWith Q) b cs) :
    ∀ proc, .procStart proc ∈ (s.calls cs).2 → Q proc.pid proc.ppid := by
  intro proc hp
  obtain ⟨b', s', c, hc, ht', hfor⟩ := TraceSession.mem_calls ht ha hq hp
  cases c with
  | processStart rec =>
    simp only [TraceSession.Foretold, Option.some.injEq, QueuedEvent.procStart.injEq] at hfor
    rw [hfor]
    simp only [ht'.currentSynth]
    exact hc
  | _ => simp [TraceSession.Foretold] at hfor

theorem apart (ht : s.Tracks b) (ha : b.Admitted cs) {x : Int} (hx : Along (Apart x) b cs) :
    ∀ ev ∈ (s.calls cs).2, ev.pid ≠ x := by
  intro ev hev
  obtain ⟨b', s', c, hc, -, hfor⟩ := TraceSession.mem_calls ht ha hx hev
  rw [hfor.pid_eq]
  exact hc

end
end Book

namespace Tables

/-- What the tables hold under one id. -/
def under (t : Tables) (x : Int) : List ProcessRecord × List StoredAccess × List StoredAccess :=
  (t.processes.filter fun r => r.pid = x, t.accesses.filter fun a => a.pid = x, t.failures.filter fun a => a.pid = x)

private theorem counted_eq (t : Tables) (r : ProcessRecord) : t.counted r =
    { r with fileCount := (t.accesses.filter fun a => a.pid = r.pid).length
             failCount := (t.failures.filter fun a => a.pid = r.pid).length } := by
  simp only [counted, accesses, failures, List.filter_map, List.length_map, Function.comp_def]

end Tables

namespace Pipeline
variable {t : Tables} {acts : List PipelineAct}

/-- The tables that `finalize` leaves, read off the events. -/
theorem OnProtocol.finalized (h : OnProtocol t acts) (ht : t.Sound) :
    ((opened t).run acts).finalize.committed.processes =
      (Writer.rowsAfter t.processes (({} : TraceSession).calls (callsOf acts)).2).map
        ((opened t).run acts).finalize.committed.counted ∧
    ((opened t).run acts).finalize.committed.accesses =
      t.accesses ++ (({} : TraceSession).calls (callsOf acts)).2.filterMap QueuedEvent.access ∧
    ((opened t).run acts).finalize.committed.failures =
      t.failures ++ (({} : TraceSession).calls (callsOf acts)).2.filterMap QueuedEvent.failure := by
  obtain ⟨w, ha, hfin⟩ := finalize_follows h.follows (Writer.opened_steady ht) rfl h.unrefused
  rw [hfin]
  exact ⟨congrArg (List.map _) ha.processes, ha.accesses, ha.failures⟩

/-- The rows that the writer has written so far are those of the first events. -/
theorem OnProtocol.written (h : OnProtocol t acts) (ht : t.Sound) : ∃ es,
    es <+: (({} : TraceSession).calls (callsOf acts)).2 ∧
      ((opened t).run acts).writer.db.tables.processes = Writer.rowsAfter t.processes es := by
  obtain ⟨es, heq, happ⟩ := h.follows.applied
  have hevents : es ++ ((opened t).run acts).queue = (({} : TraceSession).calls (callsOf acts)).2 := heq
  have hu := h.unrefused
  rw [← hevents, Writer.unrefused_append] at hu
  refine ⟨es, ⟨_, hevents⟩, ?_⟩
  rw [happ]
  exact (Writer.applyAll_unrefused (w := Writer.opened t) (Writer.opened_steady ht) rfl hu.1).processes

/-- Calls about other processes leave everything under an id as an earlier finalize would have left it. -/
theorem finalized_apart {early : List PipelineAct} (ht : t.Sound) (h : OnProtocol t early) (h' : OnProtocol t acts)
    {cs : List SessionCall} (hcs : callsOf acts = callsOf early ++ cs) (hp : Book.Admitted {} (callsOf acts)) {x : Int}
    (hx : Book.Along (Book.Apart x) (Book.noteAll {} (callsOf early)) cs) :
    ((opened t).run acts).finalize.committed.under x = ((opened t).run early).finalize.committed.under x := by
  rw [hcs, Book.Admitted, Book.along_append] at hp
  have htracks := TraceSession.calls_tracks TraceSession.tracks_fresh hp.1
  have hother := Book.apart htracks hp.2 hx
  obtain ⟨hrows, hacc, hfail⟩ := h.finalized ht
  obtain ⟨hrows', hacc', hfail'⟩ := h'.finalized ht
  simp only [hcs, TraceSession.calls_append, List.filterMap_append] at hrows' hacc' hfail'
  generalize ((opened t).run early).finalize.committed = final at *
  generalize ((opened t).run acts).finalize.committed = final' at *
  have hnone : ∀ (f : QueuedEvent → Option Tables.StoredAccess), (∀ ev a, f ev = some a → a.pid = ev.pid) →
      ((((({} : TraceSession).calls (callsOf early)).1.calls cs).2.filterMap f).filter fun a => a.pid = x) = [] := by
    intro f hf
    refine List.filter_eq_nil_iff.mpr fun a ha => ?_
    obtain ⟨ev, hev, hsome⟩ := List.mem_filterMap.mp ha
    simp only [decide_eq_true_eq, hf ev a hsome]
    exact hother ev hev
  have haccesses : (final'.accesses.filter fun a => a.pid = x) = final.accesses.filter fun a => a.pid = x := by
    rw [hacc, hacc', ← List.append_assoc, List.filter_append,
      hnone _ fun _ _ => QueuedEvent.access_pid, List.append_nil]
  have hfailures : (final'.failures.filter fun a => a.pid = x) = final.failures.filter fun a => a.pid = x := by
    rw [hfail, hfail', ← List.append_assoc, List.filter_append,
      hnone _ fun _ _ => QueuedEvent.failure_pid, List.append_nil]
  simp only [Tables.under, haccesses, hfailures, Prod.mk.injEq, and_true, hrows, hrows', Writer.rowsAfter_append,
    List.filter_map, Function.comp_def, Tables.counted_eq]
  rw [Writer.rowsAfter_filter hother]
  refine List.map_congr_left fun r hr => ?_
  have hr : r.pid = x := of_decide_eq_true (List.mem_filter.mp hr).2
  rw [Tables.counted_eq, Tables.counted_eq, hr, haccesses, hfailures]

end Pipeline
end Bdtrace
