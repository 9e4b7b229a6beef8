import Bdtrace.Session.TraceSession

/-! The event loop and the writer with the queue between them, one call or one applied
event at a time, in any order. -/
namespace Bdtrace

@[ext] structure Pipeline where
  session : TraceSession := {}
  queue : List QueuedEvent := []
  writer : Writer := {}

inductive PipelineAct where
  | call (c : SessionCall)
  | write
  deriving DecidableEq, Repr

def PipelineAct.call? : PipelineAct → Option SessionCall
  | call c => some c
  | write => none

namespace Pipeline

/-- A fresh session on the tables of a closed database. -/
def opened (t : Tables) : Pipeline := { writer := Writer.opened t }

/-- The event that a call hands to the writer, if any. -/
def emits (p : Pipeline) (c : SessionCall) : Option QueuedEvent :=
  (p.session.call p.writer.hasFatalErrors c).2

def step (p : Pipeline) : PipelineAct → Pipeline
  | .call c => { p with session := (p.session.call p.writer.hasFatalErrors c).1
                        queue := p.queue ++ (p.emits c).toList }
  | .write =>
    match p.queue with
    | [] => p
    | ev :: q => { p with queue := q, writer := p.writer.applyEvent Disk.healthy ev }

def run (p : Pipeline) (acts : List PipelineAct) : Pipeline := acts.foldl step p

@[simp] theorem run_nil (p : Pipeline) : p.run [] = p := rfl

@[simp] theorem run_cons (p : Pipeline) (a : PipelineAct) (acts : List PipelineAct) :
    p.run (a :: acts) = (p.step a).run acts := rfl

theorem run_append (p : Pipeline) (as bs : List PipelineAct) : p.run (as ++ bs) = (p.run as).run bs :=
  List.foldl_append

/-- `TraceSession::finalize`: drain, commit, recount. -/
def finalize (p : Pipeline) : Database :=
  let db := ((p.writer.applyAll p.queue).commitOpen Disk.healthy).db
  db.store db.tables.populateCounts

end Pipeline

namespace TraceSession

/-- The session and its events after calls that met no fatal error. -/
def calls (s : TraceSession) : List SessionCall → TraceSession × List QueuedEvent
  | [] => (s, [])
  | c :: cs => (((s.call false c).1.calls cs).1, (s.call false c).2.toList ++ ((s.call false c).1.calls cs).2)

theorem calls_append (s : TraceSession) (cs ds : List SessionCall) :
    s.calls (cs ++ ds) = (((s.calls cs).1.calls ds).1, (s.calls cs).2 ++ ((s.calls cs).1.calls ds).2) := by
  induction cs generalizing s with
  | nil => simp [calls]
  | cons c cs ih => simp [calls, ih]

end TraceSession

namespace Pipeline

/-- A pipeline whose writer has met no error: it has applied a prefix of what the calls emitted. -/
structure Follows (p₀ p : Pipeline) (cs : List SessionCall) : Prop where
  session : p.session = (p₀.session.calls cs).1
  applied : ∃ es, es ++ p.queue = p₀.queue ++ (p₀.session.calls cs).2 ∧ p.writer = p₀.writer.applyAll es

/-- The writer never reports a fatal error while the events it is given are not refused. -/
private theorem not_fatal {p₀ p : Pipeline} {cs : List SessionCall} (hw : p₀.writer.Steady)
    (h0 : p₀.writer.writeErrorCount = 0)
    (hes : Writer.Unrefused p₀.writer.db.tables.processes (p₀.queue ++ (p₀.session.calls cs).2))
    (h : Follows p₀ p cs) : p.writer.hasFatalErrors = false := by
  obtain ⟨es, heq, happ⟩ := h.applied
  rw [← heq, Writer.unrefused_append] at hes
  have ha := Writer.applyAll_unrefused hw h0 hes.1
  have := ha.steady.errors
  rw [ha.writeErrorCount, h0] at this
  simp only [Writer.hasFatalErrors, decide_eq_false_iff_not, happ]
  omega

private theorem follows_step {p₀ p : Pipeline} {cs : List SessionCall} (a : PipelineAct)
    (hf : p.writer.hasFatalErrors = false) (h : Follows p₀ p cs) :
    Follows p₀ (p.step a) (cs ++ a.call?.toList) := by
  obtain ⟨es, heq, happ⟩ := h.applied
  cases a with
  | call c =>
    have hcalls : p₀.session.calls (cs ++ [c]) = ((p.session.call false c).1,
        (p₀.session.calls cs).2 ++ (p.session.call false c).2.toList) := by
      rw [TraceSession.calls_append, h.session]
      simp [TraceSession.calls]
    refine ⟨?_, es, ?_, happ⟩
    · simp only [PipelineAct.call?, Option.toList_some, hcalls, step, hf]
    · simp only [PipelineAct.call?, Option.toList_some, hcalls, step, emits, hf]
      rw [← List.append_assoc, heq, List.append_assoc]
  | write =>
    simp only [PipelineAct.call?, Option.toList_none, List.append_nil]
    cases hq : p.queue with
    | nil => exact (by simpa only [step, hq] using h)
    | cons ev q =>
      refine ⟨by simpa only [step, hq] using h.session, es ++ [ev], ?_, ?_⟩
      · simp only [step, hq]
        rw [← heq, hq, List.append_assoc, List.singleton_append]
      · simp only [step, hq, Writer.applyAll_append, ← happ, Writer.applyAll_cons, Writer.applyAll_nil]

/-- Every schedule of the calls follows them, when their events are not refused. -/
theorem run_follows {p₀ : Pipeline} (hw : p₀.writer.Steady) (h0 : p₀.writer.writeErrorCount = 0)
    (acts : List PipelineAct)
    (hes : Writer.Unrefused p₀.writer.db.tables.processes
      (p₀.queue ++ (p₀.session.calls (acts.filterMap PipelineAct.call?)).2)) :
    Follows p₀ (p₀.run acts) (acts.filterMap PipelineAct.call?) ∧
      (p₀.run acts).writer.hasFatalErrors = false := by
  induction acts using List.reverseRecOn with
  | nil =>
    have h : Follows p₀ p₀ [] := ⟨rfl, [], by simp [TraceSession.calls], rfl⟩
    exact ⟨h, not_fatal hw h0 (by simpa [TraceSession.calls] using hes) h⟩
  | append_singleton acts a ih =>
    have hsplit : (acts ++ [a]).filterMap PipelineAct.call? =
        acts.filterMap PipelineAct.call? ++ a.call?.toList := by
      cases a <;> simp [PipelineAct.call?]
    rw [hsplit] at hes ⊢
    have hes' : Writer.Unrefused p₀.writer.db.tables.processes
        (p₀.queue ++ (p₀.session.calls (acts.filterMap PipelineAct.call?)).2) := by
      rw [TraceSession.calls_append, ← List.append_assoc, Writer.unrefused_append] at hes
      exact hes.1
    obtain ⟨hfol, hfat⟩ := ih hes'
    rw [run_append]
    have hstep := follows_step a hfat hfol
    exact ⟨hstep, not_fatal hw h0 hes hstep⟩

/-- A property of the writer that one applied event keeps holds through any schedule and the final
drain. -/
theorem writer_run {P : Writer → Prop} (hP : ∀ w ev, P w → P (w.applyEvent Disk.healthy ev)) {p : Pipeline}
    (h : P p.writer) (acts : List PipelineAct) :
    P (p.run acts).writer ∧ P ((p.run acts).writer.applyAll (p.run acts).queue) := by
  have hall : ∀ (es : List QueuedEvent) (w : Writer), P w → P (w.applyAll es) := fun es => by
    induction es with
    | nil => exact fun _ hw => hw
    | cons ev es ih => exact fun w hw => ih _ (hP w ev hw)
  suffices P (p.run acts).writer from ⟨this, hall _ _ this⟩
  induction acts generalizing p with
  | nil => exact h
  | cons a acts ih =>
    refine ih ?_
    cases a with
    | call c => exact h
    | write =>
      cases hq : p.queue with
      | nil => simpa only [step, hq] using h
      | cons ev q => simpa only [step, hq] using hP _ ev h

theorem run_steady {p : Pipeline} (h : p.writer.Steady) (acts : List PipelineAct) :
    (p.run acts).writer.Steady :=
      (writer_run (P := Writer.Steady) (fun _ ev hw => Writer.applyEvent_steady hw ev) h acts).1

/-- After finalize everything is committed. -/
theorem finalize_eq {p : Pipeline} (h : (p.writer.applyAll p.queue).Steady) :
    p.finalize.tables = (p.writer.applyAll p.queue).db.tables.populateCounts ∧
      p.finalize.committed = (p.writer.applyAll p.queue).db.tables.populateCounts := by
  obtain ⟨hst, hfl, htab, -⟩ := Writer.commitOpen_healthy h
  simp only [finalize, Database.store, htab, hst.flag, hfl, Bool.false_eq_true, if_false, and_self]

/-- What a finished run leaves, for every schedule whose events are not refused. -/
theorem finalize_follows {p₀ p : Pipeline} {cs : List SessionCall} (h : Follows p₀ p cs)
    (hw : p₀.writer.Steady) (h0 : p₀.writer.writeErrorCount = 0)
    (hes : Writer.Unrefused p₀.writer.db.tables.processes (p₀.queue ++ (p₀.session.calls cs).2)) :
    ∃ w, Writer.AppliedAll (p₀.queue ++ (p₀.session.calls cs).2) p₀.writer w ∧
      p.finalize.committed = w.db.tables.populateCounts := by
  obtain ⟨es, heq, happ⟩ := h.applied
  have hall : p.writer.applyAll p.queue = p₀.writer.applyAll (p₀.queue ++ (p₀.session.calls cs).2) := by
    rw [happ, ← Writer.applyAll_append, heq]
  have ha := Writer.applyAll_unrefused hw h0 hes
  exact ⟨_, ha, hall ▸ (finalize_eq (hall ▸ ha.steady)).2⟩

end Pipeline
end Bdtrace
