import Bdtrace.Tracer.TracerModes

/-! The `--procs-only` mode, in which no syscall stop is asked for: it records the same processes as full
tracing of the same run. -/
namespace Bdtrace

/-- A procs-only run beside the full run with the same reports away from system calls. -/
structure ReportRun.Covers (only full : ReportRun) : Prop where
  tasks : full.backend.SameTasks only.backend
  calls : (only.calls.map SessionCall.placeless).Sublist (full.calls.map SessionCall.placeless)
  processes : (only.calls.filter SessionCall.ofProcess).map SessionCall.placeless =
    (full.calls.filter SessionCall.ofProcess).map SessionCall.placeless
  signals : only.signals = full.signals
  accesses : ∀ c ∈ only.calls, c.ofProcess = true ∨ ∃ rec : FileAccessRecord, c = .fileAccess rec ∧ rec.mode = .exec

private theorem SessionCall.ofProcess_placeless (c : SessionCall) : c.placeless.ofProcess = c.ofProcess := by
  cases c <;> rfl

private theorem processCalls_map (cs : List SessionCall) : (cs.filter SessionCall.ofProcess).map SessionCall.placeless =
    (cs.map SessionCall.placeless).filter SessionCall.ofProcess := by
  rw [List.filter_map]
  congr 1
  apply List.filter_congr
  intro c _
  exact (SessionCall.ofProcess_placeless c).symm

namespace ReportRun

private theorem covers_start (seccompMode : Bool) (tracer root : Int) (view : TraceeView) :
    (start true false tracer root view).Covers (start false seccompMode tracer root view) := by
  refine ⟨?_, List.Sublist.refl _, rfl, rfl, fun c hc => .inl ?_⟩
  · have hnone : PtraceBackend.SameTasks { seccompMode := seccompMode } { procsOnly := true } := fun q => rfl
    exact hnone.track root rfl
  · rw [List.mem_singleton.mp hc]
    rfl

private theorem covers_atSyscall {only full : ReportRun} (h : only.Covers full) {r : Report} (hr : r.atSyscall = true) :
    only.Covers (full.step r) := by
  obtain ⟨htasks, hcalls, hsig⟩ := PtraceBackend.handleReport_atSyscall h.tasks hr
  refine ⟨htasks, ?_, ?_, ?_, h.accesses⟩
  · rw [step, List.map_append]
    exact h.calls.trans (List.sublist_append_left ..)
  · have hnone : (full.backend.handleReport r.view r.pid r.status).calls.filter SessionCall.ofProcess = [] := by
      apply List.filter_eq_nil_iff.mpr
      intro c hc
      simp only [hcalls c hc, Bool.false_eq_true, not_false_eq_true]
    rw [step, List.filter_append, hnone, List.append_nil]
    exact h.processes
  · rw [step, hsig, List.append_nil]
    exact h.signals

private theorem covers_report {only full : ReportRun} (h : only.Covers full) {r : Report} (hr : r.atSyscall = false) :
    (only.step r).Covers (full.step r) := by
  obtain ⟨htasks, hcalls, hsig⟩ := PtraceBackend.handleReport_lasting h.tasks hr
  refine ⟨htasks, ?_, ?_, ?_, fun c hc => ?_⟩
  · simp only [step, List.map_append, hcalls]
    exact h.calls.append_right _
  · have hprocs := h.processes
    simp only [processCalls_map, step, List.map_append, List.filter_append, hcalls] at hprocs ⊢
    rw [hprocs]
  · simp only [step, hsig, h.signals]
  · rcases List.mem_append.mp hc with hc | hc
    · exact h.accesses c hc
    · exact PtraceBackend.handleReport_accesses only.backend hr hc

private theorem covers_run {only full : ReportRun} (h : only.Covers full) (rs : List Report) :
    (only.run (rs.filter fun r => !r.atSyscall)).Covers (full.run rs) := by
  induction rs generalizing only full with
  | nil => exact h
  | cons r rs ih =>
    cases hr : r.atSyscall with
    | true =>
      rw [List.filter_cons_of_neg (by simp [hr])]
      exact ih (covers_atSyscall h hr)
    | false =>
      rw [List.filter_cons_of_pos (by simp [hr])]
      exact ih (covers_report h hr)

end ReportRun

/-! ### The rows -/

def QueuedEvent.placeless : QueuedEvent → QueuedEvent
  | .procStart proc => .procStart { proc with cwd := [] }
  | ev => ev

def QueuedEvent.ofProcess : QueuedEvent → Bool
  | .procStart _ | .procExit .. | .deleteProc _ => true
  | .fileAccess _ | .failedAccess _ => false

/-- A row of `processes` without its working directory. -/
def ProcessRecord.placeless (r : ProcessRecord) : ProcessRecord := { r with cwd := [] }

private theorem rowsAfter_placeless (rows : List ProcessRecord) (es : List QueuedEvent) :
    (Writer.rowsAfter rows es).map ProcessRecord.placeless =
      Writer.rowsAfter (rows.map ProcessRecord.placeless)
        ((es.filter QueuedEvent.ofProcess).map QueuedEvent.placeless) := by
  induction es generalizing rows with
  | nil => rfl
  | cons ev es ih =>
    have hpids : (rows.map ProcessRecord.placeless).map (·.pid) = rows.map (·.pid) := by
      rw [List.map_map]
      rfl
    have hkept : ev.ofProcess = true → (ev.onProcesses rows).map ProcessRecord.placeless =
        ev.placeless.onProcesses (rows.map ProcessRecord.placeless) := by
      intro hev
      cases ev with
      | procStart proc =>
        simp only [QueuedEvent.onProcesses, QueuedEvent.placeless, hpids]
        split
        · rfl
        · rw [List.map_append]
          rfl
      | procExit pid x =>
        simp only [QueuedEvent.onProcesses, QueuedEvent.placeless, List.map_map]
        apply List.map_congr_left
        intro r _
        by_cases h : r.pid = pid
        · simp [ProcessRecord.placeless, ProcessRecord.finish, h]
        · simp [ProcessRecord.placeless, h]
      | deleteProc pid =>
        simp only [QueuedEvent.onProcesses, QueuedEvent.placeless, List.filter_map]
        rfl
      | _ => cases hev
    cases hev : ev.ofProcess with
    | true =>
      rw [List.filter_cons_of_pos hev]
      simp only [Writer.rowsAfter, List.foldl_cons, List.map_cons] at ih ⊢
      rw [ih, hkept hev]
    | false =>
      rw [List.filter_cons_of_neg (by simp [hev])]
      have hsame : ev.onProcesses rows = rows := by
        cases ev with
        | fileAccess fa => rfl
        | failedAccess failed => rfl
        | _ => cases hev
      simp only [Writer.rowsAfter, List.foldl_cons, hsame] at ih ⊢
      exact ih rows

namespace TraceSession

/-- Two sessions that give out the same ids. -/
structure SameIds (s s' : TraceSession) : Prop where
  pidGen : s.pidGen = s'.pidGen
  livePids : s.livePids = s'.livePids
  expectReinsert : s.expectReinsert = s'.expectReinsert

private theorem SameIds.synth {s s' : TraceSession} (h : s.SameIds s') (pid : Int) :
    s.currentSynth pid = s'.currentSynth pid := by
  simp only [currentSynth, h.pidGen]

private theorem call_fileAccess {s s' : TraceSession} (h : s.SameIds s') {c : SessionCall} (hc : c.ofProcess = false) :
    (s.call false c).1.SameIds s' ∧ (s.call false c).2.toList.filter QueuedEvent.ofProcess = [] := by
  cases c with
  | fileAccess rec =>
    by_cases hseen : (accessKey rec, rec.filename) ∈ s.seen rec.pid
    · simp only [call, onFileAccess_seen hseen]
      exact ⟨⟨h.pidGen, h.livePids, h.expectReinsert⟩, rfl⟩
    · simp only [call, onFileAccess_new hseen]
      exact ⟨⟨h.pidGen, h.livePids, h.expectReinsert⟩, rfl⟩
  | failedAccess rec =>
    by_cases hseen : (failedKey rec, rec.filename) ∈ s.seen rec.pid
    · simp only [call, onFailedAccess, alreadySeen, hseen, if_true, Bool.false_eq_true, if_false]
      exact ⟨⟨h.pidGen, h.livePids, h.expectReinsert⟩, rfl⟩
    · simp only [call, onFailedAccess, alreadySeen, hseen, Bool.false_eq_true, if_false]
      exact ⟨⟨h.pidGen, h.livePids, h.expectReinsert⟩, rfl⟩
  | _ => cases hc

private theorem beginIncarnation_sameIds {s s' : TraceSession} (h : s.SameIds s') (pid : Int) :
    (s.beginIncarnation pid).SameIds (s'.beginIncarnation pid) := by
  unfold beginIncarnation
  rw [h.pidGen, h.expectReinsert]
  cases s'.pidGen pid with
  | none => exact ⟨rfl, h.livePids, rfl⟩
  | some g =>
    dsimp only
    split
    · exact ⟨rfl, h.livePids, rfl⟩
    · exact ⟨rfl, h.livePids, rfl⟩

private theorem call_ofProcess {s s' : TraceSession} (h : s.SameIds s') {c : SessionCall} (hc : c.ofProcess = true) :
    (s.call false c).1.SameIds (s'.call false c.placeless).1 ∧
      ((s.call false c).2.toList.filter QueuedEvent.ofProcess).map QueuedEvent.placeless =
        (s'.call false c.placeless).2.toList := by
  cases c with
  | processStart rec =>
    have hbegin : ((s.eraseSeen rec.pid).beginIncarnation rec.pid).SameIds
        ((s'.eraseSeen rec.pid).beginIncarnation rec.pid) := by
      apply beginIncarnation_sameIds
      exact ⟨h.pidGen, h.livePids, h.expectReinsert⟩
    have hlive : ∀ u u' : TraceSession, u.SameIds u' →
        ({ u with livePids := insert rec.pid u.livePids } : TraceSession).SameIds
          { u' with livePids := insert rec.pid u'.livePids } := by
      intro u u' hu
      exact ⟨hu.pidGen, by simp [hu.livePids], hu.expectReinsert⟩
    have hboth := hlive _ _ hbegin
    refine ⟨⟨hboth.pidGen, hboth.livePids, hboth.expectReinsert⟩, ?_⟩
    have hself := hboth.synth rec.pid
    have hparent := hboth.synth rec.ppid
    simp only [call, onProcessStart, SessionCall.placeless, Bool.false_eq_true, if_false, Option.toList_some,
      List.filter_cons, QueuedEvent.ofProcess, if_true, List.filter_nil, List.map_cons, List.map_nil,
      QueuedEvent.placeless, hself, hparent]
  | processExit pid x =>
    refine ⟨⟨h.pidGen, ?_, ?_⟩, ?_⟩
    · simp [call, onProcessExit, SessionCall.placeless, eraseSeen, h.livePids]
    · simp [call, onProcessExit, SessionCall.placeless, eraseSeen, h.expectReinsert]
    · exact congrArg (fun id => [QueuedEvent.procExit id x]) (h.synth pid)
  | deleteProcess pid =>
    refine ⟨⟨h.pidGen, h.livePids, ?_⟩, ?_⟩
    · simp [call, deleteProcess, SessionCall.placeless, h.expectReinsert]
    · exact congrArg (fun id => [QueuedEvent.deleteProc id]) (h.synth pid)
  | _ => cases hc

/-- The events about processes depend on the calls about processes only. -/
private theorem calls_processes {s s' : TraceSession} (h : s.SameIds s') (cs : List SessionCall) :
    ((s.calls cs).2.filter QueuedEvent.ofProcess).map QueuedEvent.placeless =
      (s'.calls ((cs.filter SessionCall.ofProcess).map SessionCall.placeless)).2 := by
  induction cs generalizing s s' with
  | nil => rfl
  | cons c cs ih =>
    simp only [calls, List.filter_append, List.map_append]
    cases hc : c.ofProcess with
    | true =>
      obtain ⟨hids, hev⟩ := call_ofProcess h hc
      rw [List.filter_cons_of_pos hc, List.map_cons, calls, hev, ih hids]
    | false =>
      obtain ⟨hids, hev⟩ := call_fileAccess h hc
      rw [List.filter_cons_of_neg (by simp [hc]), hev, ih hids]
      rfl

end TraceSession

/-- A run in `--procs-only` mode and the fully traced run with the same reports record the same rows of processes, up
to working directories, and pass the same signals on; the shorter run has no accesses but those of executed files. -/
theorem procsOnly_records (seccompMode : Bool) (tracer root : Int) (view : TraceeView) (rs : List Report)
    (rows : List ProcessRecord) :
    let full := (ReportRun.start false seccompMode tracer root view).run rs
    let only := (ReportRun.start true false tracer root view).run (rs.filter fun r => !r.atSyscall)
    (Writer.rowsAfter rows (TraceSession.calls {} only.calls).2).map ProcessRecord.placeless =
        (Writer.rowsAfter rows (TraceSession.calls {} full.calls).2).map ProcessRecord.placeless ∧
      (only.calls.map SessionCall.placeless).Sublist (full.calls.map SessionCall.placeless) ∧
      only.signals = full.signals ∧
      ∀ c ∈ only.calls, c.ofProcess = true ∨ ∃ rec : FileAccessRecord, c = .fileAccess rec ∧ rec.mode = .exec := by
  intro full only
  have h : only.Covers full := ReportRun.covers_run (ReportRun.covers_start seccompMode tracer root view) rs
  have hids : TraceSession.SameIds {} {} := ⟨rfl, rfl, rfl⟩
  refine ⟨?_, h.calls, h.signals, h.accesses⟩
  rw [rowsAfter_placeless, rowsAfter_placeless, TraceSession.calls_processes hids, TraceSession.calls_processes hids,
    h.processes]

end Bdtrace
