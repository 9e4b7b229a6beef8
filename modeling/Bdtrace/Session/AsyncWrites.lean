import Bdtrace.Session.WriterThread
import Bdtrace.Session.FailingWriter
import Mathlib.Data.List.Infix

/-! A session in its two modes: with a writer thread, and with the synchronous writes that it
falls back to when the thread cannot be started. -/
namespace Bdtrace

/-- What the disk replies while the n-th event is applied, and to the commit after the last one. -/
structure Replies where
  event : Nat → Disk
  closing : Disk

/-- Events in the order in which they are applied, each with its replies. -/
def Replies.answer (r : Replies) (es : List QueuedEvent) : List DiskEvent := es.mapIdx fun n ev => (r.event n, ev)

private theorem Replies.answer_snoc (r : Replies) (es : List QueuedEvent) (ev : QueuedEvent) :
    r.answer (es ++ [ev]) = r.answer es ++ [(r.event es.length, ev)] := by
  simp [answer, List.mapIdx_append]

/-! ### Without the thread -/

/-- `async_` is false; `written` counts the events that were applied. -/
structure SyncSession where
  session : TraceSession := {}
  writer : Writer := {}
  written : Nat := 0

namespace SyncSession

def opened (t : Tables) : SyncSession := { writer := Writer.opened t }

/-- A call of the tracer: `enqueue` applies the event at once. -/
def step (r : Replies) (s : SyncSession) (c : SessionCall) : SyncSession :=
  match s.session.call s.writer.hasFatalErrors c with
  | (session, none) => { s with session := session }
  | (session, some ev) =>
    { session := session, writer := s.writer.applyEvent (r.event s.written) ev, written := s.written + 1 }

def run (r : Replies) (s : SyncSession) (cs : List SessionCall) : SyncSession := cs.foldl (step r) s

end SyncSession

/-! ### With the thread -/

/-- The event loop's half of the session beside the two threads; `calls` records the calls made. -/
structure AsyncSession where
  session : TraceSession := {}
  threads : Threads := {}
  calls : List SessionCall := []

inductive AsyncAct where
  | call (c : SessionCall)
  | tryEnqueue | requestStop | join | check | apply | leave | wakeMain | wakeWriter
  | publish (size : Int)
  deriving DecidableEq, Repr

namespace AsyncSession

def opened (t : Tables) : AsyncSession := { threads := Threads.opened t }

/-- The step of the threads that an act other than a call is. -/
def threadAct (r : Replies) (s : AsyncSession) : AsyncAct → Option ThreadAct
  | .call _ => none
  | .tryEnqueue => some .tryEnqueue
  | .requestStop => some .requestStop
  | .join => some (.join r.closing)
  | .check => some .check
  | .apply => some (.apply (r.event s.threads.applied.length))
  | .leave => some (.leave r.closing)
  | .wakeMain => some .wakeMain
  | .wakeWriter => some .wakeWriter
  | .publish size => some (.publish size)

/-- The tracer makes a call when it is in none; the call ends in `enqueue` if it has an event to hand on. -/
def makeCall (s : AsyncSession) (c : SessionCall) : AsyncSession :=
  match s.threads.main with
  | .idle =>
    match s.session.call s.threads.writer.hasFatalErrors c with
    | (session, none) => { s with session := session, calls := s.calls ++ [c] }
    | (session, some ev) => { session := session, threads := s.threads.step (.call ev), calls := s.calls ++ [c] }
  | _ => s

def step (r : Replies) (s : AsyncSession) (a : AsyncAct) : AsyncSession :=
  match a, s.threadAct r a with
  | .call c, _ => s.makeCall c
  | _, some act => { s with threads := s.threads.step act }
  | _, none => s

def run (r : Replies) (s : AsyncSession) (acts : List AsyncAct) : AsyncSession := acts.foldl (step r) s

end AsyncSession

/-! ### After a fatal error -/

private theorem Writer.applyOn_fatal {w : Writer} (h : w.hasFatalErrors = true) (es : List DiskEvent) :
    w.applyOn es = w := by
  induction es with
  | nil => rfl
  | cons e es ih =>
    simp only [Writer.applyOn, List.foldl_cons, Writer.applyEvent_fatal e.1 h]
    exact ih

private theorem Writer.applyOn_append (w : Writer) (es fs : List DiskEvent) :
    w.applyOn (es ++ fs) = (w.applyOn es).applyOn fs :=
  List.foldl_append

/-- Events that come after a fatal one change nothing. -/
private theorem Replies.applyOn_of_fatal (r : Replies) {w : Writer} {es fs : List QueuedEvent} (h : es <+: fs)
    (hf : (w.applyOn (r.answer es)).hasFatalErrors = true) : w.applyOn (r.answer fs) = w.applyOn (r.answer es) := by
  obtain ⟨rest, rfl⟩ := h
  have hanswer : ∃ more, r.answer (es ++ rest) = r.answer es ++ more := ⟨_, List.mapIdx_append⟩
  obtain ⟨more, hmore⟩ := hanswer
  rw [hmore, Writer.applyOn_append, Writer.applyOn_fatal hf]

namespace TraceSession

private theorem call_fatal (s : TraceSession) (c : SessionCall) : s.call true c = (s, none) := by
  cases c <;> rfl

private theorem calls_snoc (s : TraceSession) (cs : List SessionCall) (c : SessionCall) :
    s.calls (cs ++ [c]) =
      (((s.calls cs).1.call false c).1, (s.calls cs).2 ++ ((s.calls cs).1.call false c).2.toList) := by
  rw [calls_append]
  simp [calls]

/-- A beginning of what the calls emit is what a beginning of the calls emits. -/
private theorem calls_initial {s : TraceSession} {cs : List SessionCall} {es : List QueuedEvent}
    (h : es <+: (s.calls cs).2) :
    ∃ before, before <+: cs ∧ (s.calls before).2 = es := by
  induction cs using List.reverseRecOn with
  | nil => exact ⟨[], List.prefix_rfl, (List.prefix_nil.mp h).symm⟩
  | append_singleton cs c ih =>
    rw [calls_snoc] at h
    have hwhole : es = (s.calls (cs ++ [c])).2 ∨ es <+: (s.calls cs).2 := by
      rw [calls_snoc]
      cases hev : ((s.calls cs).1.call false c).2 with
      | none => exact .inr (by simpa [hev] using h)
      | some ev =>
        rw [hev, Option.toList_some] at h
        exact (List.prefix_concat_iff.mp h).imp_left fun he => he
    rcases hwhole with he | hes
    · exact ⟨cs ++ [c], List.prefix_rfl, he.symm⟩
    · obtain ⟨before, hbefore, heq⟩ := ih hes
      exact ⟨before, hbefore.trans (List.prefix_append cs [c]), heq⟩

end TraceSession

/-! ### The synchronous session -/

/-- A synchronous session has written what its calls emit; it is out of step with them only after a fatal error. -/
structure SyncSession.Wrote (r : Replies) (t : Tables) (s : SyncSession) (cs : List SessionCall) : Prop where
  writer : s.writer = (Writer.opened t).applyOn (r.answer (TraceSession.calls {} cs).2)
  session : s.writer.hasFatalErrors = true ∨
    s.session = (TraceSession.calls {} cs).1 ∧ s.written = (TraceSession.calls {} cs).2.length

private theorem SyncSession.wrote_run (r : Replies) (t : Tables) (cs : List SessionCall) :
    ((opened t).run r cs).Wrote r t cs := by
  induction cs using List.reverseRecOn with
  | nil => exact ⟨rfl, .inr ⟨rfl, rfl⟩⟩
  | append_singleton cs c ih =>
    have hrun : (opened t).run r (cs ++ [c]) = ((opened t).run r cs).step r c := List.foldl_append
    rw [hrun]
    generalize (opened t).run r cs = s at ih
    have hfatal : s.writer.hasFatalErrors = true → (s.step r c).Wrote r t (cs ++ [c]) := by
      intro hf
      have hstep : (s.step r c).writer = s.writer := by simp only [step, hf, TraceSession.call_fatal]
      have hinit : (TraceSession.calls {} cs).2 <+: (TraceSession.calls {} (cs ++ [c])).2 := by
        rw [TraceSession.calls_snoc]
        exact List.prefix_append ..
      have hrest := r.applyOn_of_fatal hinit (ih.writer ▸ hf)
      exact ⟨hstep.trans (ih.writer.trans hrest.symm), .inl (hstep ▸ hf)⟩
    rcases ih.session with hf | ⟨hsession, hwritten⟩
    · exact hfatal hf
    · cases hf : s.writer.hasFatalErrors with
      | true => exact hfatal hf
      | false =>
        have hcall := TraceSession.calls_snoc {} cs c
        rw [← hsession] at hcall
        cases hev : s.session.call false c with
        | mk session ev =>
          rw [hev] at hcall
          cases ev with
          | none =>
            simp only [Option.toList_none, List.append_nil] at hcall
            simp only [step, hf, hev]
            exact ⟨hcall ▸ ih.writer, .inr (hcall ▸ ⟨rfl, hwritten⟩)⟩
          | some ev =>
            simp only [Option.toList_some] at hcall
            simp only [step, hf, hev]
            refine ⟨?_, .inr (hcall ▸ ⟨rfl, ?_⟩)⟩
            · rw [hcall, r.answer_snoc, Writer.applyOn_snoc, ih.writer, hwritten]
            · rw [List.length_append, hwritten, List.length_singleton]

/-! ### The session with its writer thread -/

namespace Threads

/-- The event that the event-loop thread holds in `enqueue`. -/
def held (s : Threads) : List QueuedEvent :=
  match s.main with
  | .ready ev | .blocked ev => [ev]
  | _ => []

/-- Every event handed to `enqueue`, pushed or not. -/
def handed (s : Threads) : List QueuedEvent := s.enqueued ++ s.held

/-- What the thread has written: the events applied so far, and after its end the last commit. -/
structure Writes (r : Replies) (t : Tables) (s : Threads) : Prop where
  running : s.loop ≠ .exited → s.writer = (Writer.opened t).applyOn (r.answer s.applied)
  ended : s.loop = .exited → s.writer = ((Writer.opened t).applyOn (r.answer s.applied)).commitOpen r.closing

/-- The replies of an act are those of the run. -/
def FromReplies (r : Replies) (s : Threads) : ThreadAct → Prop
  | .join d | .leave d => d = r.closing
  | .apply d => d = r.event s.applied.length
  | _ => True

private theorem handed_hasSpace (s : Threads) : ({ s with main := s.main.hasSpace } : Threads).held = s.held := by
  cases h : s.main <;> simp [held, h, MainPc.hasSpace]

/-- Only a call hands an event on. -/
private theorem step_handed (s : Threads) {a : ThreadAct} (ha : ∀ ev, a ≠ .call ev) : (s.step a).handed = s.handed := by
  unfold step
  split
  case h_1 _ ev hm => exact absurd rfl (ha ev)
  case h_2 ev _ hm =>
    unfold enqueueStep
    split
    · simp [handed, held, hm]
    · simp [handed, held, hm]
  case h_3 hm => simp [handed, held, hm]
  case h_4 hm hl => simp [handed, held, hm]
  case h_5 ev hm => simp [handed, held, hm]
  case h_6 hl =>
    unfold checkStep
    split
    · rfl
    · exact congrArg (s.enqueued ++ ·) (handed_hasSpace s)
  case h_7 d hl => split <;> rfl
  case h_8 size hl => split <;> rfl
  all_goals rfl

private theorem step_writes {r : Replies} {t : Tables} {s : Threads} (hs : s.Sane) (h : s.Writes r t) {a : ThreadAct}
    (ha : s.FromReplies r a) : (s.step a).Writes r t := by
  have hawake : s.loop.hasEvents = .exited ↔ s.loop = .exited := by
    cases s.loop <;> simp [WriterPc.hasEvents]
  unfold step
  split
  case h_2 ev _ hm =>
    unfold enqueueStep
    split
    · exact ⟨h.running, h.ended⟩
    · exact ⟨fun hl => h.running (mt hawake.mpr hl), fun hl => h.ended (hawake.mp hl)⟩
  case h_3 hm => exact ⟨fun hl => h.running (mt hawake.mpr hl), fun hl => h.ended (hawake.mp hl)⟩
  case h_4 d hm hl =>
    -- the writer thread has committed: finalize finds nothing open
    have hnone : s.writer.commitOpen d = s.writer := by
      simp only [Writer.commitOpen, hs.exited hl, Bool.false_eq_true, if_false]
    exact ⟨fun hne => absurd hl hne, fun _ => hnone.trans (h.ended hl)⟩
  case h_6 hl =>
    have hrun := h.running (by simp [hl])
    unfold checkStep
    split
    · refine ⟨fun _ => hrun, fun hend => ?_⟩
      dsimp only at hend
      split at hend <;> cases hend
    · exact ⟨fun _ => hrun, fun hend => by cases hend⟩
  case h_7 d hl =>
    obtain rfl : d = r.event s.applied.length := ha
    have hrun := h.running (by simp [hl])
    split
    · exact h
    · refine ⟨fun _ => ?_, fun hend => absurd hend (by simp [hl])⟩
      simp only [r.answer_snoc, Writer.applyOn_snoc, hrun]
  case h_8 size hl =>
    have hrun := h.running (by simp [hl])
    split
    · exact ⟨fun _ => hrun, fun hend => by cases hend⟩
    · exact h
  case h_9 d hl =>
    obtain rfl : d = r.closing := ha
    refine ⟨fun hne => absurd rfl hne, fun _ => ?_⟩
    exact congrArg (Writer.commitOpen r.closing) (h.running (by simp [hl]))
  case h_10 hl =>
    exact ⟨fun _ => h.running (by simp [hl]), fun hend => by cases hend⟩
  all_goals exact ⟨h.running, h.ended⟩

end Threads

private theorem Writer.commitOpen_hasFatalErrors (d : Disk) (w : Writer) :
    (w.commitOpen d).hasFatalErrors = w.hasFatalErrors := by
  unfold commitOpen
  split <;> rfl

/-- Once it has met a fatal error the thread goes on meeting it. -/
private theorem Threads.Writes.fatal_mono {r : Replies} {t : Tables} {s s' : Threads} (h : s.Writes r t)
    (h' : s'.Writes r t)
    (happ : s.applied <+: s'.applied) (hf : s.writer.hasFatalErrors = true) : s'.writer.hasFatalErrors = true := by
  have hwrote : ∀ {u : Threads}, u.Writes r t →
      u.writer.hasFatalErrors = ((Writer.opened t).applyOn (r.answer u.applied)).hasFatalErrors := by
    intro u hu
    by_cases hl : u.loop = .exited
    · rw [hu.ended hl, Writer.commitOpen_hasFatalErrors]
    · rw [hu.running hl]
  rw [hwrote h] at hf
  rw [hwrote h', r.applyOn_of_fatal happ hf, hf]

private theorem Threads.step_applied (s : Threads) (a : ThreadAct) : s.applied <+: (s.step a).applied := by
  unfold Threads.step
  split
  case h_2 ev _ hm =>
    unfold Threads.enqueueStep
    split <;> exact List.prefix_rfl
  case h_6 hl =>
    unfold Threads.checkStep
    split <;> exact List.prefix_rfl
  case h_7 d hl =>
    split
    · exact List.prefix_rfl
    · exact List.prefix_append ..
  case h_8 size hl => split <;> exact List.prefix_rfl
  all_goals exact List.prefix_rfl

namespace AsyncSession

/-- The two halves of an asynchronous session. The event loop has handed on what its calls emit, or has
stopped doing so because the writer reported a fatal error. -/
structure Mirrors (r : Replies) (t : Tables) (s : AsyncSession) : Prop where
  sane : s.threads.Sane
  writes : s.threads.Writes r t
  handed : s.threads.handed = (TraceSession.calls {} s.calls).2 ∧ s.session = (TraceSession.calls {} s.calls).1 ∨
    s.threads.handed <+: (TraceSession.calls {} s.calls).2 ∧ s.threads.writer.hasFatalErrors = true

private theorem mirrors_opened (r : Replies) (t : Tables) : (opened t).Mirrors r t :=
  ⟨Threads.sane_opened t, ⟨fun _ => rfl, fun hl => by cases hl⟩, .inl ⟨rfl, rfl⟩⟩

private theorem mirrors_thread {r : Replies} {t : Tables} {s : AsyncSession} (h : s.Mirrors r t) {a : ThreadAct}
    (hr : s.threads.FromReplies r a) (hc : ∀ ev, a ≠ .call ev) :
    ({ s with threads := s.threads.step a } : AsyncSession).Mirrors r t := by
  have hwrites := Threads.step_writes h.sane h.writes hr
  refine ⟨Threads.sane_step h.sane a, hwrites, ?_⟩
  dsimp only
  rw [s.threads.step_handed hc]
  refine h.handed.imp_right fun hf => ⟨hf.1, ?_⟩
  exact h.writes.fatal_mono hwrites (s.threads.step_applied a) hf.2

private theorem mirrors_call {r : Replies} {t : Tables} {s : AsyncSession} (h : s.Mirrors r t) (c : SessionCall) :
    (s.makeCall c).Mirrors r t := by
  unfold makeCall
  split
  case h_2 => exact h
  case h_1 hidle =>
    have hcall := TraceSession.calls_snoc {} s.calls c
    have hinit : (TraceSession.calls {} s.calls).2 <+: (TraceSession.calls {} (s.calls ++ [c])).2 := by
      rw [hcall]
      exact List.prefix_append ..
    cases hf : s.threads.writer.hasFatalErrors with
    | true =>
      simp only [TraceSession.call_fatal]
      refine ⟨h.sane, h.writes, .inr ⟨?_, hf⟩⟩
      rcases h.handed with ⟨heq, -⟩ | ⟨hpre, -⟩
      · exact heq ▸ hinit
      · exact hpre.trans hinit
    | false =>
      have hplain : s.threads.handed = (TraceSession.calls {} s.calls).2 ∧
          s.session = (TraceSession.calls {} s.calls).1 := by
        rcases h.handed with heq | ⟨-, hfatal⟩
        · exact heq
        · rw [hf] at hfatal
          cases hfatal
      rw [← hplain.1, ← hplain.2] at hcall
      cases hev : s.session.call false c with
      | mk session ev =>
        rw [hev] at hcall
        cases ev with
        | none =>
          simp only [Option.toList_none, List.append_nil] at hcall
          exact ⟨h.sane, h.writes, .inl (hcall ▸ ⟨rfl, rfl⟩)⟩
        | some ev =>
          have hstep : s.threads.step (.call ev) = { s.threads with main := .ready ev } := by
            simp only [Threads.step, hidle]
          refine ⟨Threads.sane_step h.sane _, ?_, .inl ?_⟩
          · dsimp only
            rw [hstep]
            exact ⟨h.writes.running, h.writes.ended⟩
          · dsimp only
            rw [hcall, hstep]
            simp [Threads.handed, Threads.held, hidle]

private theorem mirrors_step {r : Replies} {t : Tables} {s : AsyncSession} (h : s.Mirrors r t) (a : AsyncAct) :
    (s.step r a).Mirrors r t := by
  cases a with
  | call c => exact mirrors_call h c
  | _ => exact mirrors_thread h (by simp [Threads.FromReplies]) (by simp)

private theorem mirrors_run (r : Replies) (t : Tables) (acts : List AsyncAct) :
    ((opened t).run r acts).Mirrors r t := by
  induction acts using List.reverseRecOn with
  | nil => exact mirrors_opened r t
  | append_singleton acts a ih =>
    have hrun : (opened t).run r (acts ++ [a]) = ((opened t).run r acts).step r a := List.foldl_append
    rw [hrun]
    exact mirrors_step ih a

/-- For every interleaving of the two threads and every behaviour of the disk, the database is at each moment what
the synchronous session has written after some beginning of the same calls, and after the join what it has written
after all of them. -/
theorem async_writes (r : Replies) (t : Tables) (acts : List AsyncAct) :
    (∃ cs, cs <+: ((opened t).run r acts).calls ∧
      (((opened t).run r acts).threads.writer = ((SyncSession.opened t).run r cs).writer ∨
        ((opened t).run r acts).threads.loop = .exited ∧ ((opened t).run r acts).threads.writer =
          ((SyncSession.opened t).run r cs).writer.commitOpen r.closing)) ∧
    (((opened t).run r acts).threads.main = .joined → ((opened t).run r acts).threads.writer =
      ((SyncSession.opened t).run r ((opened t).run r acts).calls).writer.commitOpen r.closing) := by
  have h := mirrors_run r t acts
  generalize (opened t).run r acts = s at h
  have hhanded : s.threads.handed <+: (TraceSession.calls {} s.calls).2 := by
    rcases h.handed with ⟨heq, -⟩ | ⟨hpre, -⟩
    · exact heq ▸ List.prefix_rfl
    · exact hpre
  refine ⟨?_, fun hjoined => ?_⟩
  · have happ : s.threads.applied <+: (TraceSession.calls {} s.calls).2 := by
      refine List.IsPrefix.trans ?_ hhanded
      rw [Threads.handed, h.sane.history, List.append_assoc, List.append_assoc]
      exact List.prefix_append ..
    obtain ⟨cs, hcs, heq⟩ := TraceSession.calls_initial happ
    refine ⟨cs, hcs, ?_⟩
    rw [(SyncSession.wrote_run r t cs).writer, heq]
    by_cases hend : s.threads.loop = .exited
    · exact .inr ⟨hend, h.writes.ended hend⟩
    · exact .inl (h.writes.running hend)
  · have hexit := h.sane.joined hjoined
    have hbatch : s.threads.batch = [] := h.sane.batchOnly (by simp [hexit])
    have hqueue := (h.sane.leaving (.inr hexit)).2
    have hall : s.threads.applied = s.threads.handed := by
      simp [Threads.handed, Threads.held, hjoined, h.sane.history, hbatch, hqueue]
    have hended := h.writes.ended hexit
    rw [hall] at hended
    rw [hended, (SyncSession.wrote_run r t s.calls).writer]
    rcases h.handed with ⟨heq, -⟩ | ⟨hpre, hfatal⟩
    · rw [heq]
    · rw [hended, Writer.commitOpen_hasFatalErrors] at hfatal
      rw [r.applyOn_of_fatal hpre hfatal]

/-- An access waits in the queue while the start before it is written, and its insertion fails. -/
def lateAccess : List AsyncAct :=
  [.call (.processStart { pid := 100, ppid := 50 }), .tryEnqueue, .check, .call (.fileAccess { pid := 100 }),
    .tryEnqueue, .apply, .publish 0, .requestStop, .check, .apply, .publish 0, .check, .leave, .join]

/-- A disk that refuses its second event. -/
def refusesSecond : Replies :=
  { event := fun n s => if n = 1 ∧ s = .insertFile then .failed else .done, closing := Disk.healthy }

theorem async_writes_lateAccess :
    ((opened {}).run refusesSecond lateAccess).threads.writer =
      ((SyncSession.opened {}).run refusesSecond ((opened {}).run refusesSecond lateAccess).calls).writer.commitOpen
        refusesSecond.closing :=
  (async_writes refusesSecond {} lateAccess).2 rfl

end AsyncSession
end Bdtrace
