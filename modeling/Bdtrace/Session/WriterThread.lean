import Bdtrace.Session.Pipeline

/-! The event loop and the writer thread with their mutex and condition variables. A step is
whatever a thread does without releasing the mutex, or one event applied outside it. -/
namespace Bdtrace

def maxQueueEvents : Nat := 200000

/-- Where the event-loop thread stands. -/
inductive MainPc where
  | idle
  | ready (ev : QueuedEvent)
  | blocked (ev : QueuedEvent)
  | joining
  | joined
  deriving DecidableEq, Repr

/-- Where `writer_loop` stands. -/
inductive WriterPc where
  | checking | asleep | applying | leaving | exited
  deriving DecidableEq, Repr

/-- The shared state; `enqueued` and `applied` record what was pushed and what was passed to
`apply_event`. -/
structure Threads where
  main : MainPc := .idle
  loop : WriterPc := .checking
  queue : List QueuedEvent := []
  batch : List QueuedEvent := []
  stopRequested : Bool := false
  writer : Writer := {}
  dbSizeCache : Int := 0
  enqueued : List QueuedEvent := []
  applied : List QueuedEvent := []

inductive ThreadAct where
  | call (ev : QueuedEvent)
  | tryEnqueue
  | requestStop
  | join (d : Disk)
  | check
  | apply (d : Disk)
  | publish (size : Int)
  | leave (d : Disk)
  | wakeMain
  | wakeWriter

/-- The disk answers a COMMIT of this act: it is done, or the transaction is rolled back. -/
def ThreadAct.Commits : ThreadAct → Prop
  | .join d | .apply d | .leave d => d .commit ≠ .failed
  | _ => True

namespace MainPc

/-- `pthread_cond_broadcast(&cond_has_space_)`. -/
def hasSpace : MainPc → MainPc
  | blocked ev => ready ev
  | pc => pc

end MainPc

namespace WriterPc

/-- A signal on `cond_has_events_`. -/
def hasEvents : WriterPc → WriterPc
  | asleep => checking
  | pc => pc

end WriterPc

namespace Threads

def opened (t : Tables) : Threads := { writer := Writer.opened t }

/-- The loop of `enqueue` with the mutex held: wait while the queue is full, else push and signal. -/
def enqueueStep (s : Threads) (ev : QueuedEvent) : Threads :=
  if maxQueueEvents ≤ s.queue.length ∧ s.stopRequested = false then { s with main := .blocked ev }
  else { s with main := .idle, queue := s.queue ++ [ev], loop := s.loop.hasEvents
                enqueued := s.enqueued ++ [ev] }

/-- The head of `writer_loop` with the mutex held: wait, leave, or swap the queue out. -/
def checkStep (s : Threads) : Threads :=
  match s.queue with
  | [] => { s with loop := if s.stopRequested then .leaving else .asleep }
  | q => { s with loop := .applying, batch := q, queue := [], main := s.main.hasSpace }

/-- A step of either thread; an act that is not due where its thread stands does nothing. The two
wake-ups may happen at any time, as a condition variable permits. -/
def step (s : Threads) (a : ThreadAct) : Threads :=
  match a, s.main, s.loop with
  | .call ev, .idle, _ => { s with main := .ready ev }
  | .tryEnqueue, .ready ev, _ => s.enqueueStep ev
  | .requestStop, .idle, _ => { s with main := .joining, stopRequested := true, loop := s.loop.hasEvents }
  | .join d, .joining, .exited => { s with main := .joined, writer := s.writer.commitOpen d }
  | .wakeMain, .blocked ev, _ => { s with main := .ready ev }
  | .check, _, .checking => s.checkStep
  | .apply d, _, .applying =>
    match s.batch with
    | [] => s
    | ev :: rest => { s with batch := rest, writer := s.writer.applyEvent d ev, applied := s.applied ++ [ev] }
  | .publish size, _, .applying =>
    match s.batch with
    | [] => { s with loop := .checking, dbSizeCache := if s.writer.inTransaction then s.dbSizeCache else size }
    | _ :: _ => s
  | .leave d, _, .leaving => { s with loop := .exited, writer := s.writer.commitOpen d }
  | .wakeWriter, _, .asleep => { s with loop := .checking }
  | _, _, _ => s

def run (s : Threads) (acts : List ThreadAct) : Threads := acts.foldl step s

/-- The invariant of both threads. The last two say that no wake-up is lost. -/
structure Sane (s : Threads) : Prop where
  history : s.enqueued = s.applied ++ s.batch ++ s.queue
  bound : s.queue.length ≤ maxQueueEvents
  batchOnly : s.loop ≠ .applying → s.batch = []
  stop : s.stopRequested = true ↔ s.main = .joining ∨ s.main = .joined
  leaving : s.loop = .leaving ∨ s.loop = .exited → s.stopRequested = true ∧ s.queue = []
  joined : s.main = .joined → s.loop = .exited
  exited : s.loop = .exited → s.writer.inTransaction = false
  asleep : s.loop = .asleep → s.queue = [] ∧ s.stopRequested = false
  blocked : ∀ ev, s.main = .blocked ev → maxQueueEvents ≤ s.queue.length

theorem sane_opened (t : Tables) : (opened t).Sane := by
  constructor <;> simp [opened]

private theorem hasEvents_cases (pc : WriterPc) :
    (pc = .asleep ∧ pc.hasEvents = .checking) ∨ (pc ≠ .asleep ∧ pc.hasEvents = pc) := by
  cases pc <;> simp [WriterPc.hasEvents]

/-- Before the stop request the writer thread has not left its loop. -/
private theorem running {s : Threads} (h : s.Sane) (hs : s.stopRequested = false) :
    s.loop ≠ .leaving ∧ s.loop ≠ .exited := by
  constructor <;> intro hl
  · have := (h.leaving (.inl hl)).1
    simp [hs] at this
  · have := (h.leaving (.inr hl)).1
    simp [hs] at this

private theorem sane_enqueueStep {s : Threads} (h : s.Sane) {ev : QueuedEvent} (hm : s.main = .ready ev) :
    (s.enqueueStep ev).Sane := by
  have hstop : s.stopRequested = false := by
    have := h.stop
    simpa [hm] using this
  obtain ⟨hl, he⟩ := running h hstop
  unfold enqueueStep
  split
  · rename_i hfull
    -- pthread_cond_wait releases the mutex: nothing but the pc changes
    exact { h with
      stop := by simp [hstop]
      joined := by simp
      blocked := fun _ _ => hfull.1 }
  · rename_i hspace
    have hroom : s.queue.length < maxQueueEvents := by simpa [hstop] using hspace
    have hawake : s.loop.hasEvents ≠ .asleep ∧ s.loop.hasEvents ≠ .leaving ∧ s.loop.hasEvents ≠ .exited := by
      rcases hasEvents_cases s.loop with ⟨-, hc⟩ | ⟨hne, hc⟩
      · simp [hc]
      · simp [hc, hne, hl, he]
    exact {
      history := by simp [h.history]
      bound := by rw [List.length_append]; exact hroom
      batchOnly := fun hna => h.batchOnly fun hap => hna (by simp [hap, WriterPc.hasEvents])
      stop := by simp [hstop]
      leaving := fun hx => hx.elim (fun hx => absurd hx hawake.2.1) (fun hx => absurd hx hawake.2.2)
      joined := by simp
      exited := fun hx => absurd hx hawake.2.2
      asleep := fun hx => absurd hx hawake.1
      blocked := by simp }

private theorem hasSpace_cases (pc : MainPc) :
    (∃ ev, pc = .blocked ev ∧ pc.hasSpace = .ready ev) ∨ ((∀ ev, pc ≠ .blocked ev) ∧ pc.hasSpace = pc) := by
  cases pc <;> simp [MainPc.hasSpace]

private theorem sane_checkStep {s : Threads} (h : s.Sane) (hl : s.loop = .checking) : s.checkStep.Sane := by
  have hbatch : s.batch = [] := h.batchOnly (by simp [hl])
  have hmain : s.main ≠ .joined := fun hj => by
    have := h.joined hj
    simp [hl] at this
  unfold checkStep
  split
  · rename_i hq
    by_cases hstop : s.stopRequested = true
    · rw [if_pos hstop]
      exact { h with
        batchOnly := fun _ => hbatch
        leaving := fun _ => ⟨hstop, hq⟩
        joined := fun hj => absurd hj hmain
        exited := by simp
        asleep := by simp }
    · rw [if_neg hstop]
      exact { h with
        batchOnly := fun _ => hbatch
        leaving := by simp
        joined := fun hj => absurd hj hmain
        exited := by simp
        asleep := fun _ => ⟨hq, by simpa using hstop⟩ }
  · have hspace : ∀ ev, s.main.hasSpace ≠ .blocked ev := by
      rcases hasSpace_cases s.main with ⟨ev, -, hr⟩ | ⟨hne, hr⟩
      · simp [hr]
      · simpa [hr] using hne
    have hstop : (s.main.hasSpace = .joining ∨ s.main.hasSpace = .joined) ↔
        (s.main = .joining ∨ s.main = .joined) := by
      cases s.main <;> simp [MainPc.hasSpace]
    have hjoined : s.main.hasSpace ≠ .joined := by
      cases hm : s.main <;> simp [MainPc.hasSpace]
      exact absurd hm hmain
    exact {
      history := by simp [h.history, hbatch]
      bound := Nat.zero_le _
      batchOnly := by simp
      stop := h.stop.trans hstop.symm
      leaving := by simp
      joined := fun hj => absurd hj hjoined
      exited := by simp
      asleep := by simp
      blocked := fun ev hb => absurd hb (hspace ev) }

private theorem sane_requestStop {s : Threads} (h : s.Sane) (hm : s.main = .idle) :
    ({ s with main := .joining, stopRequested := true, loop := s.loop.hasEvents } : Threads).Sane := by
  have hstop : s.stopRequested = false := by
    have := h.stop
    simpa [hm] using this
  obtain ⟨hl, he⟩ := running h hstop
  have hawake : s.loop.hasEvents ≠ .asleep ∧ s.loop.hasEvents ≠ .leaving ∧ s.loop.hasEvents ≠ .exited := by
    rcases hasEvents_cases s.loop with ⟨-, hc⟩ | ⟨hne, hc⟩
    · simp [hc]
    · simp [hc, hne, hl, he]
  exact {
    history := h.history
    bound := h.bound
    batchOnly := fun hna => h.batchOnly fun hap => hna (by simp [hap, WriterPc.hasEvents])
    stop := by simp
    leaving := fun hx => hx.elim (fun hx => absurd hx hawake.2.1) (fun hx => absurd hx hawake.2.2)
    joined := by simp
    exited := fun hx => absurd hx hawake.2.2
    asleep := fun hx => absurd hx hawake.1
    blocked := by simp }

/-- One step of either thread keeps the invariant. -/
theorem sane_step {s : Threads} (h : s.Sane) (a : ThreadAct) : (s.step a).Sane := by
  unfold step
  split
  case h_1 ev _ hm =>
    -- a call arrives at enqueue
    have hstop : s.stopRequested = false := by
      have := h.stop
      simpa [hm] using this
    exact { h with stop := by simp [hstop], joined := by simp, blocked := by simp }
  case h_2 ev _ hm => exact sane_enqueueStep h hm
  case h_3 _ hm => exact sane_requestStop h hm
  case h_4 d hm hl =>
    exact { h with
      stop := by simpa [hm] using h.stop
      joined := fun _ => hl
      exited := fun _ => Writer.commitOpen_flag d s.writer
      blocked := by simp }
  case h_5 ev hm =>
    have hstop : s.stopRequested = false := by
      have := h.stop
      simpa [hm] using this
    exact { h with stop := by simp [hstop], joined := by simp, blocked := by simp }
  case h_6 hl => exact sane_checkStep h hl
  case h_7 d hl =>
    split
    · exact h
    · rename_i ev rest hb
      exact { h with
        history := by simp [h.history, hb]
        batchOnly := fun hna => absurd hl hna
        exited := fun hx => by simp [hl] at hx }
  case h_8 size hl =>
    split
    · rename_i hb
      exact { h with
        batchOnly := fun _ => hb
        leaving := by simp
        joined := fun hj => by
          have := h.joined hj
          simp [hl] at this
        exited := by simp
        asleep := by simp }
    · exact h
  case h_9 d hl =>
    exact { h with
      batchOnly := fun _ => h.batchOnly (by simp [hl])
      leaving := fun _ => h.leaving (.inl hl)
      joined := fun _ => rfl
      exited := fun _ => Writer.commitOpen_flag d s.writer
      asleep := by simp }
  case h_10 hl =>
    exact { h with
      batchOnly := fun _ => h.batchOnly (by simp [hl])
      leaving := by simp
      joined := fun hj => by
        have := h.joined hj
        simp [hl] at this
      exited := by simp
      asleep := by simp }
  case h_11 => exact h

/-- Every interleaving keeps the invariant. -/
private theorem sane_run {s : Threads} (h : s.Sane) (acts : List ThreadAct) : (s.run acts).Sane := by
  induction acts generalizing s with
  | nil => exact h
  | cons a acts ih => exact ih (sane_step h a)

/-- One step keeps the connection's transaction inside its batch, when a COMMIT is answered. -/
private theorem closes_step {s : Threads} (h : s.writer.Closes) {a : ThreadAct} (ha : a.Commits) :
    (s.step a).writer.Closes := by
  unfold step
  split
  case h_2 ev _ hm =>
    unfold enqueueStep
    split <;> exact h
  case h_4 d hm hl => exact Writer.commitOpen_closes ha h
  case h_6 hl =>
    unfold checkStep
    split <;> exact h
  case h_7 d hl =>
    split
    · exact h
    · exact Writer.applyEvent_closes ha h _
  case h_8 size hl => split <;> exact h
  case h_9 d hl => exact Writer.commitOpen_closes ha h
  all_goals exact h

private theorem closes_run {s : Threads} (h : s.writer.Closes) {acts : List ThreadAct} (ha : ∀ a ∈ acts, a.Commits) :
    (s.run acts).writer.Closes := by
  induction acts generalizing s with
  | nil => exact h
  | cons a acts ih =>
    apply ih (closes_step h (ha a (List.mem_cons_self ..)))
    intro b hb
    exact ha b (List.mem_cons_of_mem _ hb)

/-- For every interleaving of the two threads: what was applied is a prefix of what was enqueued, the
queue is bounded, and after the join everything was applied once and no transaction is open. -/
theorem writer_queue (t : Tables) (acts : List ThreadAct) :
    ((opened t).run acts).applied <+: ((opened t).run acts).enqueued ∧
      ((opened t).run acts).queue.length ≤ 200000 ∧
      (((opened t).run acts).main = .joined →
        ((opened t).run acts).applied = ((opened t).run acts).enqueued ∧ ((opened t).run acts).queue = [] ∧
          ((opened t).run acts).writer.inTransaction = false ∧
          ((∀ a ∈ acts, a.Commits) → ((opened t).run acts).writer.db.inTransaction = false)) := by
  have h := sane_run (sane_opened t) acts
  refine ⟨⟨_, (List.append_assoc .. ▸ h.history).symm⟩, h.bound, fun hj => ?_⟩
  have hexit := h.joined hj
  have hqueue := (h.leaving (.inr hexit)).2
  have hflag := h.exited hexit
  refine ⟨?_, hqueue, hflag, fun hc => ?_⟩
  · have hbatch : ((opened t).run acts).batch = [] := h.batchOnly (by simp [hexit])
    rw [h.history, hbatch, hqueue, List.append_nil, List.append_nil]
  · exact closes_run (s := opened t) (fun _ => rfl) hc hflag

/-- The stop request arrives while the only event is in the swapped-out batch. -/
def shortRun : List ThreadAct :=
  [.call (.procStart { pid := 100, ppid := 50 }), .tryEnqueue, .check, .requestStop, .apply Disk.healthy,
    .publish 4096, .check, .leave Disk.healthy, .join Disk.healthy]

theorem writer_queue_shortRun :
    ((opened {}).run shortRun).applied = ((opened {}).run shortRun).enqueued ∧
      ((opened {}).run shortRun).writer.db.inTransaction = false := by
  obtain ⟨-, -, hjoined⟩ := writer_queue {} shortRun
  obtain ⟨hall, -, -, hclosed⟩ := hjoined rfl
  refine ⟨hall, hclosed ?_⟩
  simp [shortRun, ThreadAct.Commits, Disk.healthy]

private theorem loop_moves {s : Threads} {a : ThreadAct} (h : (s.step a).loop ≠ s.loop) : s.step a ≠ s :=
  fun he => h (congrArg Threads.loop he)

/-- The writer thread outside its waits and its end can always move. -/
private theorem writer_moves {s : Threads} (h : s.loop = .checking ∨ s.loop = .applying ∨ s.loop = .leaving) :
    ∃ a, ¬ (a matches .wakeMain | .wakeWriter) ∧ s.step a ≠ s := by
  rcases h with hl | hl | hl
  · refine ⟨.check, by simp, loop_moves ?_⟩
    simp only [step, hl, checkStep]
    split
    · split <;> simp
    · simp
  · cases hb : s.batch with
    | nil => exact ⟨.publish 0, by simp, loop_moves (by simp [step, hl, hb])⟩
    | cons ev rest =>
      refine ⟨.apply Disk.healthy, by simp, fun he => ?_⟩
      have := congrArg Threads.batch he
      simp [step, hl, hb] at this
  · exact ⟨.leave Disk.healthy, by simp, loop_moves (by simp [step, hl])⟩

/-- While an event is to be enqueued or finalize waits, some step other than a spurious wake-up is due. -/
private theorem never_stuck (t : Tables) (acts : List ThreadAct) :
    ((opened t).run acts).main = .idle ∨ ((opened t).run acts).main = .joined ∨
      ∃ a, ¬ (a matches .wakeMain | .wakeWriter) ∧ ((opened t).run acts).step a ≠ (opened t).run acts := by
  have h := sane_run (sane_opened t) acts
  generalize (opened t).run acts = s at h
  have hmove : ∀ a, (s.step a).main ≠ s.main → s.step a ≠ s := fun a hne he => hne (congrArg Threads.main he)
  cases hm : s.main with
  | idle => exact .inl rfl
  | joined => exact .inr (.inl rfl)
  | ready ev =>
    refine .inr (.inr ⟨.tryEnqueue, by simp, hmove _ ?_⟩)
    simp only [step, hm, enqueueStep]
    split <;> simp
  | blocked ev =>
    -- the queue is full, so the writer is not waiting for events
    have hfull := h.blocked ev hm
    have hstop : s.stopRequested = false := by
      have := h.stop
      simpa [hm] using this
    have hrun := running h hstop
    refine .inr (.inr (writer_moves ?_))
    cases hl : s.loop with
    | asleep =>
      have := (h.asleep hl).1
      simp [this, maxQueueEvents] at hfull
    | leaving => exact absurd hl hrun.1
    | exited => exact absurd hl hrun.2
    | checking => exact .inl rfl
    | applying => exact .inr (.inl rfl)
  | joining =>
    have hstop : s.stopRequested = true := h.stop.mpr (.inl hm)
    cases hl : s.loop with
    | asleep =>
      have := (h.asleep hl).2
      simp [hstop] at this
    | exited => exact .inr (.inr ⟨.join Disk.healthy, by simp, hmove _ (by simp [step, hm, hl])⟩)
    | checking => exact .inr (.inr (writer_moves (.inl hl)))
    | applying => exact .inr (.inr (writer_moves (.inr (.inl hl))))
    | leaving => exact .inr (.inr (writer_moves (.inr (.inr hl))))

/-! ### The threads refine the pipeline -/

/-- What the threads look like when the batch and the queue are one sequence. -/
def toPipeline (s : Threads) (session : TraceSession) : Pipeline :=
  { session := session, queue := s.batch ++ s.queue, writer := s.writer }

/-- While the writer thread runs on a healthy disk, its steps are the pipeline's writes, a push is the
end of a call, and everything else is invisible. -/
private theorem step_refines {s : Threads} (h : s.Sane) (session : TraceSession) {a : ThreadAct}
    (ha : ∀ d, a = .apply d → d = Disk.healthy) (hend : s.loop ≠ .leaving ∧ s.loop ≠ .exited) :
    (s.step a).toPipeline session = s.toPipeline session ∨
      (s.step a).toPipeline session = (s.toPipeline session).step .write ∨
      ∃ ev, s.main = .ready ev ∧ (s.step a).toPipeline session =
        { s.toPipeline session with queue := (s.toPipeline session).queue ++ [ev] } := by
  unfold step
  split
  case h_2 _ ev hm =>
    unfold enqueueStep
    split
    · exact .inl rfl
    · exact .inr (.inr ⟨ev, hm, by simp [toPipeline]⟩)
  case h_4 d hm hl => exact absurd hl hend.2
  case h_6 hl =>
    have hbatch : s.batch = [] := h.batchOnly (by simp [hl])
    unfold checkStep
    split
    · exact .inl rfl
    · exact .inl (by simp [toPipeline, hbatch])
  case h_7 d hl =>
    obtain rfl := ha d rfl
    split
    · exact .inl rfl
    · rename_i ev rest hb
      exact .inr (.inl (by simp [toPipeline, Pipeline.step, hb]))
  case h_8 size hl => split <;> exact .inl rfl
  case h_9 d hl => exact absurd hl hend.1
  all_goals exact .inl rfl

end Threads
end Bdtrace
