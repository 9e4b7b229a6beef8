import Bdtrace.Session.Ledgers

/-! Referential integrity of what is committed. The delete and the insert of an exec are two events,
and a batch may end between them. -/
namespace Bdtrace

namespace Pipeline

/-- The next write commits the delete of an exec before its insert, while the process has accesses. -/
def CutsExec (p : Pipeline) : Prop :=
  match p.queue with
  | .deleteProc pid :: _ =>
    p.writer.AtBoundary ∧ p.writer.hasFatalErrors = false ∧ pid ∈ p.writer.db.tables.accessPids
  | _ => False

/-- Either writing has stopped on intact tables, or the writer keeps a ledger that the queue and the
book complete. -/
def Balanced (p : Pipeline) (b : Book) : Prop :=
  p.writer.Steady ∧
    ((p.writer.hasFatalErrors = true ∧ p.writer.db.tables.Referenced) ∨
      (p.writer.hasFatalErrors = false ∧ p.session.Tracks b ∧ ∃ L : Ledger, L.Kept p.writer.db.tables ∧
        L.AcceptsAll p.queue ∧ (L.addAll p.queue).Matches b))

private theorem balanced_call {p : Pipeline} {b : Book} (h : p.Balanced b) {c : SessionCall} (ha : b.Allows c) :
    (p.step (.call c)).Balanced (b.note c) := by
  obtain ⟨hst, ⟨hf, hr⟩ | ⟨hf, ht, L, hk, hacc, hm⟩⟩ := h
  · exact ⟨hst, .inl ⟨hf, hr⟩⟩
  · obtain ⟨hacc', hm'⟩ := Ledger.matches_call hm ht ha
    refine ⟨hst, .inr ⟨hf, ?_, L, hk, ?_, ?_⟩⟩
    · simpa only [step, hf] using (TraceSession.call_tracks ht ha.admits).1
    · simpa only [step, emits, hf, Ledger.acceptsAll_append] using ⟨hacc, hacc'⟩
    · simpa only [step, emits, hf, Ledger.addAll_append] using hm'

/-- Applying the head of the queue: the ledger moves on, or writing stops. -/
private theorem balanced_apply {p : Pipeline} {b : Book} (h : p.Balanced b) {ev : QueuedEvent} {q : List QueuedEvent}
    (hq : p.queue = ev :: q) :
    ({ p with queue := q, writer := p.writer.applyEvent Disk.healthy ev } : Pipeline).Balanced b := by
  obtain ⟨hst, ⟨hf, hr⟩ | ⟨hf, ht, L, hk, hacc, hm⟩⟩ := h
  · refine ⟨Writer.applyEvent_steady hst ev, .inl ?_⟩
    simpa only [Writer.applyEvent_fatal _ hf] using ⟨hf, hr⟩
  · rw [hq] at hacc hm
    have ha := Writer.applyEvent_healthy hst hf ev
    have hk' := Writer.applied_kept ha hk hacc.1
    refine ⟨ha.steady, ?_⟩
    cases hf' : (p.writer.applyEvent Disk.healthy ev).hasFatalErrors with
    | true => exact .inl ⟨rfl, hk'.referenced (Writer.gap_of_fatal ha hf')⟩
    | false => exact .inr ⟨rfl, ht, L.add ev, hk', hacc.2, hm⟩

private theorem balanced_run {t : Tables} (ht : t.Sound) (hr : t.Referenced) (acts : List PipelineAct)
    (hp : Book.Protocol {} (callsOf acts)) :
    ((opened t).run acts).Balanced (Book.noteAll {} (callsOf acts)) := by
  induction acts using List.reverseRecOn with
  | nil =>
    refine ⟨Writer.opened_steady ht, .inr ⟨rfl, TraceSession.tracks_fresh, {}, ⟨?_, fun x hx => .inl (hr x hx)⟩,
      trivial, ?_, rfl⟩⟩
    · exact fun x hx => absurd hx (Set.notMem_empty x)
    · exact fun i hi => absurd hi (Nat.not_lt_zero _)
  | append_singleton acts a ih =>
    simp only [callsOf, List.filterMap_append, Book.along_append] at hp
    have hb := ih hp.1
    rw [run_append]
    cases a with
    | call c =>
      simp only [callsOf, List.filterMap_append, Book.noteAll_append]
      exact balanced_call hb hp.2.1
    | write =>
      have hsame : callsOf (acts ++ [.write]) = callsOf acts := by simp [callsOf, PipelineAct.call?]
      rw [hsame]
      simp only [run_cons, run_nil, step]
      cases hq : ((opened t).run acts).queue with
      | nil => exact hb
      | cons ev q => exact balanced_apply hb hq

/-- Draining the rest of a balanced pipeline leaves intact tables when no exec is half called. -/
private theorem drained_referenced {p : Pipeline} {b : Book} (h : p.Balanced b) (hdone : b.pending = none) :
    (p.writer.applyAll p.queue).Steady ∧ (p.writer.applyAll p.queue).db.tables.Referenced := by
  obtain ⟨s, q, w⟩ := p
  induction q generalizing w with
  | nil =>
    obtain ⟨hst, ⟨-, hr⟩ | ⟨-, -, L, hk, -, hm⟩⟩ := h
    · exact ⟨hst, hr⟩
    · exact ⟨hst, hk.referenced (by rw [show L.gap = _ from hm.gap, hdone]; rfl)⟩
  | cons ev q ih => exact ih _ (balanced_apply h rfl)

private theorem write_committed {p : Pipeline} {b : Book} (h : p.Balanced b)
    (hr : p.writer.db.committed.Referenced) (hcut : ¬ p.CutsExec) :
    (p.step .write).writer.db.committed.Referenced := by
  cases hq : p.queue with
  | nil => simpa only [step, hq] using hr
  | cons ev q =>
    simp only [step, hq]
    obtain ⟨hst, ⟨hf, -⟩ | ⟨hf, ht, L, hk, hacc, hm⟩⟩ := h
    · simpa only [Writer.applyEvent_fatal _ hf] using hr
    · rw [hq] at hacc
      have ha := Writer.applyEvent_healthy hst hf ev
      have hk' := Writer.applied_kept ha hk hacc.1
      rw [ha.committed]
      split
      · rename_i hb
        cases ev with
        | procStart proc => exact hk'.referenced rfl
        | deleteProc pid =>
          -- the boundary is here, so the deleted process has no access row
          have hnone : pid ∉ p.writer.db.tables.accessPids := fun hx =>
            hcut (by simp only [CutsExec, hq]; exact ⟨hb, hf, hx⟩)
          intro x hx
          refine (hk'.accesses x hx).resolve_right fun hg => hnone ?_
          obtain rfl : pid = x := Option.some.inj hg
          simpa [ha.accessPids, QueuedEvent.access, QueuedEvent.failure] using hx
        | _ => exact hk'.referenced hacc.1.1
      · exact hr

private theorem not_referenced_of_cut {p : Pipeline} (hst : p.writer.Steady) (h : p.CutsExec) :
    ¬ (p.step .write).writer.db.committed.Referenced := by
  unfold CutsExec at h
  split at h
  · rename_i pid q hq
    obtain ⟨hb, hf, hx⟩ := h
    have ha := Writer.applyEvent_healthy hst hf (.deleteProc pid)
    simp only [step, hq]
    rw [ha.committed, if_pos hb]
    intro hr
    have hrow := hr pid ((ha.accessPids pid).mpr (.inl hx))
    have hkeys := Tables.deleteProcess_pids pid p.writer.db.tables
    rw [Writer.pids_of_applied ha, show ((QueuedEvent.deleteProc pid).onProcesses _).map (·.pid) = _ from hkeys]
      at hrow
    simp at hrow
  · exact h.elim

private theorem eventCount_le_length (p : Pipeline) (acts : List PipelineAct) :
    (p.run acts).writer.eventCount ≤ p.writer.eventCount + acts.length := by
  induction acts generalizing p with
  | nil => exact le_rfl
  | cons a acts ih =>
    have hstep : (p.step a).writer.eventCount ≤ p.writer.eventCount + 1 := by
      cases a with
      | call c => exact Nat.le_succ _
      | write =>
        cases hq : p.queue with
        | nil => simp only [step, hq]; omega
        | cons ev q => simpa only [step, hq] using Writer.applyEvent_eventCount_le _ _ ev
    have := ih (p.step a)
    simp only [run_cons, List.length_cons]
    omega

/-! A process that opens 4998 files and then execs: its delete is the 5000th event. -/

private theorem calls_accesses {s : TraceSession} {pid : Int} (names : List Str) (hn : names.Nodup)
    (hs : ∀ f ∈ names, ∀ k, (k, f) ∉ s.seen pid) :
    (s.calls (names.map fun f => .fileAccess { pid := pid, filename := f })).2 =
      names.map fun f => .fileAccess { pid := s.currentSynth pid, filename := f } := by
  induction names generalizing s with
  | nil => rfl
  | cons f names ih =>
    obtain ⟨hf, hn⟩ := List.nodup_cons.mp hn
    have hnew := @TraceSession.onFileAccess_new s { pid := pid, filename := f }
      (hs f (List.mem_cons_self ..) _)
    simp only [List.map_cons, TraceSession.calls, TraceSession.call, hnew]
    rw [ih hn]
    · rfl
    · intro g hg k hm
      simp only [Function.update_self, Finset.mem_insert, Prod.mk.injEq] at hm
      rcases hm with ⟨-, rfl⟩ | hm
      · exact hf hg
      · exact hs g (List.mem_cons_of_mem _ hg) k hm

private theorem run_calls {p : Pipeline} (hf : p.writer.hasFatalErrors = false) (cs : List SessionCall) :
    p.run (cs.map .call) =
      { session := (p.session.calls cs).1, queue := p.queue ++ (p.session.calls cs).2, writer := p.writer } := by
  induction cs generalizing p with
  | nil => simp [TraceSession.calls]
  | cons c cs ih =>
    rw [List.map_cons, run_cons, ih (by simpa only [step] using hf)]
    simp only [step, emits, hf, TraceSession.calls, List.append_assoc]

private theorem run_writes (p : Pipeline) (es q : List QueuedEvent) (hq : p.queue = es ++ q) :
    p.run (List.replicate es.length .write) = { p with queue := q, writer := p.writer.applyAll es } := by
  induction es generalizing p with
  | nil => simpa [Pipeline.ext_iff] using hq
  | cons ev es ih =>
    rw [List.length_cons, List.replicate_succ, run_cons]
    simp only [step, hq, List.cons_append]
    rw [ih _ rfl]
    rfl

private theorem applyAll_eventCount {w : Writer} (h : w.Steady) (h0 : w.writeErrorCount = 0)
    {es : List QueuedEvent} (hes : Writer.Unrefused w.db.tables.processes es)
    (hlen : w.eventCount + es.length < batchSize) : (w.applyAll es).eventCount = w.eventCount + es.length := by
  induction es generalizing w with
  | nil => rfl
  | cons ev es ih =>
    have hf : w.hasFatalErrors = false := by
      have := h.errors
      simp only [Writer.hasFatalErrors, decide_eq_false_iff_not]
      omega
    have ha := Writer.applyEvent_healthy h hf ev
    simp only [List.length_cons] at hlen
    have hcount : (w.applyEvent Disk.healthy ev).eventCount = w.eventCount + 1 := by
      rw [ha.eventCount, if_neg (by simp only [Writer.AtBoundary]; omega)]
    have herr : (w.applyEvent Disk.healthy ev).writeErrorCount = 0 := by
      simp [ha.writeErrorCount, hes.1, h0]
    rw [Writer.applyAll_cons, ih ha.steady herr (ha.processes ▸ hes.2) (by omega), hcount, List.length_cons]
    omega

private theorem protocol_accesses {b : Book} {pid : Int} (hb : b.pending = none ∧ 0 < b.begun pid)
    (names : List Str) :
    b.Protocol (names.map fun f => .fileAccess { pid := pid, filename := f }) ∧
      b.noteAll (names.map fun f => .fileAccess { pid := pid, filename := f }) = b := by
  induction names with
  | nil => exact ⟨trivial, rfl⟩
  | cons f names ih => exact ⟨⟨hb, ih.1⟩, ih.2⟩

def shell : ProcessRecord := { pid := 100, ppid := 50, cmdline := "sh".toList }

/-- The shell starts and opens `n` different files. -/
def shellOpens (n : Nat) : List SessionCall :=
  .processStart shell :: ((List.range n).map fun i => List.replicate (i + 1) 'a').map fun f =>
    .fileAccess { pid := 100, filename := f }

def shellEvents (n : Nat) : List QueuedEvent :=
  .procStart shell :: ((List.range n).map fun i => List.replicate (i + 1) 'a').map fun f =>
    .fileAccess { pid := 100, filename := f }

private theorem shellOpens_book (n : Nat) :
    Book.Protocol {} (shellOpens n) ∧ Book.noteAll {} (shellOpens n) = Book.note {} (.processStart shell) := by
  have hb : (Book.note {} (.processStart shell)).pending = none ∧
      0 < (Book.note {} (.processStart shell)).begun 100 := by decide
  obtain ⟨hp, hn⟩ := protocol_accesses hb ((List.range n).map fun i => List.replicate (i + 1) 'a')
  exact ⟨⟨by decide, hp⟩, hn⟩

private theorem shellOpens_events (n : Nat) :
    (({} : TraceSession).calls (shellOpens n ++ [.deleteProcess 100])).2 = shellEvents n ++ [.deleteProc 100] := by
  have hstart : (({} : TraceSession).onProcessStart false shell).2 = some (.procStart shell) := by decide
  have hseen : (({} : TraceSession).onProcessStart false shell).1.seen 100 = ∅ := by decide
  have hid : (({} : TraceSession).onProcessStart false shell).1.currentSynth 100 = 100 := by decide
  have hnames : ((List.range n).map fun i => List.replicate (i + 1) 'a').Nodup :=
    List.nodup_range.map fun i j h => by simpa using congrArg List.length h
  have ht := TraceSession.calls_tracks TraceSession.tracks_fresh (shellOpens_book n).1.admitted
  rw [(shellOpens_book n).2] at ht
  have hdel : ((({} : TraceSession).calls (shellOpens n)).1.calls [.deleteProcess 100]).2 = [.deleteProc 100] := by
    have hcur := ht.currentSynth 100
    have h100 : ((Book.note {} (.processStart shell)).current 100).id = 100 := by decide
    simp only [TraceSession.calls, TraceSession.call, TraceSession.deleteProcess, Bool.false_eq_true, if_false,
      Option.toList_some, List.append_nil, hcur, h100]
  rw [TraceSession.calls_append, hdel]
  simp only [shellOpens, TraceSession.calls, TraceSession.call, hstart, Option.toList_some]
  rw [calls_accesses _ hnames (fun f _ k => by simp [hseen]), hid]
  rfl

private theorem shellEvents_unrefused (n : Nat) : Writer.Unrefused [] (shellEvents n) := by
  refine ⟨rfl, ?_⟩
  generalize (QueuedEvent.procStart shell).onProcesses [] = rows
  generalize (List.range n).map (fun i => List.replicate (i + 1) 'a') = names
  induction names with
  | nil => trivial
  | cons f names ih => exact ⟨rfl, ih⟩

/-- The shell execs; the writer catches up between the two calls of the exec. -/
def shellExec (n : Nat) : List PipelineAct :=
  ((shellOpens n ++ [SessionCall.deleteProcess 100]).map .call ++ List.replicate (n + 2) .write) ++
    [.call (.processStart shell), .write]

private theorem shellExec_cuts {n : Nat} (hn : n + 2 = batchSize) :
    ((opened {}).run ((shellOpens n ++ [SessionCall.deleteProcess 100]).map .call ++
      List.replicate (n + 1) .write)).CutsExec := by
  have hw : (opened {}).writer.Steady := Writer.opened_steady (by decide)
  have hlen : (shellEvents n).length = n + 1 := by simp [shellEvents]
  have hall := Writer.applyAll_unrefused hw rfl (shellEvents_unrefused n)
  have hcount := applyAll_eventCount hw rfl (shellEvents_unrefused n) (by
    rw [hlen]
    simp only [opened, Writer.opened]
    omega)
  rw [← hlen, run_append, run_calls rfl, run_writes _ _ [.deleteProc 100] (shellOpens_events n)]
  refine ⟨?_, ?_, ?_⟩
  · rw [Writer.AtBoundary, hcount, hlen]
    simp only [opened, Writer.opened]
    omega
  · have herr := hall.steady.errors
    rw [hall.writeErrorCount] at herr
    simp only [Writer.hasFatalErrors, decide_eq_false_iff_not]
    simp only [opened, Writer.opened] at herr ⊢
    omega
  · rw [Tables.accessPids_eq, hall.accesses]
    obtain ⟨m, rfl⟩ : ∃ m, n = m + 1 := ⟨n - 1, by simp only [batchSize] at hn; omega⟩
    simp [shellEvents, List.range_succ, QueuedEvent.access, FileAccessRecord.stored]

private theorem shellExec_fails {n : Nat} (hn : n + 2 = batchSize) :
    Book.Protocol {} (callsOf (shellExec n)) ∧ (Book.noteAll {} (callsOf (shellExec n))).pending = none ∧
    ∃ before after, shellExec n = before ++ after ∧
      ¬ ((opened {}).run before).writer.db.committed.Referenced := by
  have hcalls : callsOf (shellExec n) = shellOpens n ++ [.deleteProcess 100, .processStart shell] := by
    have hw : (List.replicate (n + 2) PipelineAct.write).filterMap PipelineAct.call? = [] :=
      List.filterMap_replicate_of_none rfl
    simp only [callsOf, shellExec, List.filterMap_append, hw, List.filterMap_map]
    simp [PipelineAct.call?, Function.comp_def]
  obtain ⟨hp, hb⟩ := shellOpens_book n
  refine ⟨?_, ?_, _, _, rfl, ?_⟩
  · rw [hcalls, Book.Protocol, Book.along_append, hb]
    exact ⟨hp, by decide⟩
  · rw [hcalls, Book.noteAll_append, hb]
    decide
  · have hbad := not_referenced_of_cut (run_steady (Writer.opened_steady (by decide)) _) (shellExec_cuts hn)
    rw [List.replicate_succ', ← List.append_assoc, run_append]
    exact hbad

/-- With 4998 files opened before, a kill after the first commit finds the accesses of the shell
without its process. -/
theorem batch_end_inside_exec : Book.Protocol {} (callsOf (shellExec 4998)) ∧
    (Book.noteAll {} (callsOf (shellExec 4998))).pending = none ∧
    ∃ before after, shellExec 4998 = before ++ after ∧
      ¬ ((opened {}).run before).writer.db.committed.Referenced := shellExec_fails rfl

/-- Referential integrity at every commit of a protocol run and after finalize, exactly when no batch
ends between the delete and the insert of an exec of a process with accesses. -/
theorem committed_referenced_iff {t : Tables} (ht : t.Sound) (hr : t.Referenced) (acts : List PipelineAct)
    (hp : Book.Protocol {} (callsOf acts)) (hdone : (Book.noteAll {} (callsOf acts)).pending = none) :
    ((∀ before after, acts = before ++ after → ((opened t).run before).writer.db.committed.Referenced) ∧
        ((opened t).run acts).finalize.committed.Referenced) ↔
      ∀ before after, acts = before ++ .write :: after → ¬ ((opened t).run before).CutsExec := by
  have hbal : ∀ before after, acts = before ++ after →
      ((opened t).run before).Balanced (Book.noteAll {} (callsOf before)) := by
    rintro before after rfl
    simp only [callsOf, List.filterMap_append, Book.along_append] at hp
    exact balanced_run ht hr before hp.1
  constructor
  · rintro ⟨hall, -⟩ before after hacts hcut
    have hbad := not_referenced_of_cut (hbal before _ hacts).1 hcut
    have hgood := hall (before ++ [.write]) after (by simp [hacts])
    rw [run_append] at hgood
    exact hbad hgood
  · intro hcut
    refine ⟨fun before => ?_, ?_⟩
    · induction before using List.reverseRecOn with
      | nil => exact fun _ _ => hr
      | append_singleton before a ih =>
        intro after hacts
        have hacts' : acts = before ++ a :: after := by simp [hacts]
        rw [run_append]
        cases a with
        | call c => exact ih _ hacts'
        | write => exact write_committed (hbal before _ hacts') (ih _ hacts') (hcut before after hacts')
    · obtain ⟨hst, hfin⟩ := drained_referenced (hbal acts [] (by simp)) hdone
      rw [(finalize_eq hst).2]
      intro x hx
      rw [Tables.populateCounts_pids]
      exact hfin x hx

/-- An exec in the middle of a batch. -/
theorem committed_referenced_shell :
    ((∀ before after, shellExec 1 = before ++ after → ((opened {}).run before).writer.db.committed.Referenced) ∧
      ((opened {}).run (shellExec 1)).finalize.committed.Referenced) :=
  (committed_referenced_iff (by decide) (by decide) (shellExec 1) (by decide) (by decide)).mpr
    fun before after hacts hcut => by
      have hlen := congrArg List.length hacts
      have hcount := eventCount_le_length (opened {}) before
      simp only [shellExec, shellOpens, List.length_append, List.length_cons, List.length_map, List.length_range,
        List.length_replicate, List.length_nil] at hlen
      unfold CutsExec at hcut
      split at hcut
      · obtain ⟨hb, -, -⟩ := hcut
        simp only [Writer.AtBoundary, batchSize] at hb
        simp only [opened, Writer.opened] at hcount hb
        omega
      · exact hcut

end Pipeline
end Bdtrace
