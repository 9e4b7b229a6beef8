import Bdtrace.Tracer.TaskFamilies

/-! SIGINT and SIGTERM to bdtrace itself: which of them stop the trace. -/
namespace Bdtrace

/-- `g_sig_num`, `g_sig_pid`, `g_sig_code` and `g_sig_count`. -/
structure SignalRecord where
  num : Int := 0
  pid : Int := 0
  code : Int := 0
  count : Nat := 0

/-- `info` has the `si_pid` and the `si_code`. -/
def signalHandler (g : SignalRecord) (sig : Int) (info : Option (Int × Int)) : SignalRecord where
  num := sig
  pid := (info.map (·.1)).getD 0
  code := (info.map (·.2)).getD 0
  count := if g.count < 100 then g.count + 1 else g.count

/-- What the event loop keeps of a request to stop, the signals it sent on, and whether it was left. -/
structure StopControl where
  running : Bool := true
  drainDeadlineUs : Int := 0
  sigIgnored : Nat := 0
  kills : List (Int × Int) := []
  left : Bool := false

/-- The lookup of a sender. -/
def PtraceBackend.tracks (b : PtraceBackend) (pid code : Int) : Bool :=
  decide (code ≤ 0 ∧ 0 < pid) && (b.procs pid).isSome

namespace StopControl

/-- The treatment of unprocessed signals at the top of the loop. -/
def takeSignal (c : StopControl) (b : PtraceBackend) (g : SignalRecord) (root now : Int) : StopControl :=
  if g.count = 0 then c
  else if b.tracks g.pid g.code then { c with sigIgnored := c.sigIgnored + 1 }
  else if c.running then
    { c with kills := c.kills ++ [(root, g.num)], running := false, drainDeadlineUs := now + 30000000 }
  -- a second signal abandons the drain
  else { c with left := true }

def drainTimeout (c : StopControl) (now : Int) : StopControl :=
  if !c.running && c.drainDeadlineUs != 0 && decide (c.drainDeadlineUs < now) then { c with left := true } else c

@[simp] theorem drainTimeout_running (c : StopControl) (now : Int) : (c.drainTimeout now).running = c.running := by
  rw [drainTimeout]
  split <;> rfl

private theorem takeSignal_running (c : StopControl) (b : PtraceBackend) (g : SignalRecord) (root now : Int) :
    (c.takeSignal b g root now).running = (c.running && (g.count == 0 || b.tracks g.pid g.code)) := by
  rw [takeSignal]
  by_cases hcount : g.count = 0
  · simp [hcount]
  · cases htracks : b.tracks g.pid g.code <;> cases hrunning : c.running <;> simp [hcount]

end StopControl

/-- A signal on its way to bdtrace, with whether its sender was no traced process when it sent it. -/
structure SentSignal where
  sig : Int
  pid : Int
  code : Int
  outside : Bool

/-- A traced process, or what `siginfo` shows of another sender. -/
inductive Sender where
  | traced (t : Nat)
  | other (pid : Int)

/-- Signals are sent and delivered at any time; an iteration of the loop is a check and a `waitpid`, which gives a
report of a task or is interrupted. -/
inductive LoopEvent where
  | send (sender : Sender) (sig code : Int)
  | deliver (i : Nat)
  | check (now later : Int)
  | interrupted
  | task (e : TaskEvent)

/-- `registered` has the pids that a report has named and whose exits have not been reported since. -/
structure LoopRun where
  tracing : Tracing
  registered : Finset Int
  record : SignalRecord := {}
  control : StopControl := {}
  waiting : Bool := false
  inFlight : List SentSignal := []
  unprocessed : List SentSignal := []

namespace Family
variable (F : Family)

def sentSignal (sender : Sender) (sig code : Int) : SentSignal :=
  match sender with
  | .traced t => { sig := sig, pid := F.pid t, code := code, outside := false }
  | .other pid => { sig := sig, pid := pid, code := code, outside := true }

def startLoop (procsOnly seccompMode : Bool) (view : TraceeView) : LoopRun :=
  { tracing := F.start procsOnly seccompMode view, registered := {F.pid 0} }

/-- A task is registered by its own stops and by the fork event that reports it, until its exit is reported. -/
def register (pids : Finset Int) : TaskEvent → Finset Int
  | .report t status _ => if status.ends then pids.erase (F.pid t) else insert (F.pid t) pids
  | .forkEvent t c .. => insert (F.pid c) (insert (F.pid t) pids)
  | .spawn _ | .vanish _ => pids

def loopStep (r : LoopRun) : LoopEvent → LoopRun
  | .send sender sig code => { r with inFlight := r.inFlight ++ [F.sentSignal sender sig code] }
  | .deliver i =>
    match r.inFlight[i]? with
    | none => r
    | some s =>
      { r with
        record := signalHandler r.record s.sig (some (s.pid, s.code))
        inFlight := r.inFlight.eraseIdx i
        unprocessed := r.unprocessed ++ [s] }
  | .check now later =>
    { r with
      record := { r.record with count := 0 }
      control := (r.control.takeSignal r.tracing.backend r.record (F.pid 0) now).drainTimeout later
      waiting := true
      unprocessed := [] }
  | .interrupted => { r with waiting := false }
  | .task e =>
    { r with
      tracing := F.step r.tracing e
      registered := F.register r.registered e
      waiting := r.waiting && e.reporter.isNone }

/-- The kernel's rules: a process sends with its pid and no positive `si_code`, no other process has the pid of a
living task, and the loop goes on while there is an entry. A check is one step. -/
def LoopPossible (r : LoopRun) : LoopEvent → Prop
  | .send (.traced t) sig code => sig ∈ [2, 15] ∧ code ≤ 0 ∧ r.tracing.world.Active t
  | .send (.other pid) sig code =>
    sig ∈ [2, 15] ∧ (code ≤ 0 → 0 < pid → ∀ t ∈ r.tracing.world.spawned, r.tracing.world.Active t → F.pid t ≠ pid)
  | .deliver i => i < r.inFlight.length
  | .check .. => r.waiting = false ∧ r.control.left = false ∧
      ∃ t ∈ r.tracing.world.spawned, (r.tracing.backend.procs (F.pid t)).isSome
  | .interrupted => r.waiting = true
  | .task e => F.Possible r.tracing.world e ∧ (e.reporter.isSome → r.waiting = true ∧ r.control.left = false)

/-- A running trace switches to draining at a check exactly if an unprocessed signal came from outside, and at no
other event. -/
def StopsForOutside (r : LoopRun) (e : LoopEvent) : Prop :=
  r.control.running = true →
    match e with
    | .check .. => (F.loopStep r e).control.running = false ↔ ∃ s ∈ r.unprocessed, s.outside = true
    | _ => (F.loopStep r e).control.running = true

/-- A running trace checks only when the sender of the last unprocessed signal tells of all: it is no traced process
and has no registered pid, or it is registered and all of them came from traced processes, or it is a traced process
that is not registered and one of them came from outside. -/
def LastSenderTells (r : LoopRun) : LoopEvent → Prop
  | .check .. => r.control.running = true → ∀ last ∈ r.unprocessed.getLast?,
      if last.outside then last.code ≤ 0 → 0 < last.pid → last.pid ∉ r.registered
      else if last.pid ∈ r.registered then ∀ s ∈ r.unprocessed, s.outside = false
      else ∃ s ∈ r.unprocessed, s.outside = true
  | _ => True

instance (r : LoopRun) : (e : LoopEvent) → Decidable (F.LoopPossible r e)
  | .send (.traced t) sig code => inferInstanceAs (Decidable (sig ∈ [2, 15] ∧ code ≤ 0 ∧ r.tracing.world.Active t))
  | .send (.other pid) sig code => inferInstanceAs (Decidable (sig ∈ [2, 15] ∧
      (code ≤ 0 → 0 < pid → ∀ t ∈ r.tracing.world.spawned, r.tracing.world.Active t → F.pid t ≠ pid)))
  | .deliver i => inferInstanceAs (Decidable (i < r.inFlight.length))
  | .check .. => inferInstanceAs (Decidable (_ ∧ _ ∧ ∃ t ∈ r.tracing.world.spawned, _))
  | .interrupted => inferInstanceAs (Decidable (r.waiting = true))
  | .task e => inferInstanceAs (Decidable (F.Possible r.tracing.world e ∧ (_ → _ ∧ _)))

instance (r : LoopRun) : (e : LoopEvent) → Decidable (F.StopsForOutside r e)
  | .check .. => inferInstanceAs (Decidable (_ → (_ ↔ ∃ s ∈ r.unprocessed, s.outside = true)))
  | .send .. | .deliver _ | .interrupted | .task _ => inferInstanceAs (Decidable (_ → _ = true))

instance (r : LoopRun) : (e : LoopEvent) → Decidable (LastSenderTells r e)
  | .check .. => inferInstanceAs (Decidable (r.control.running = true → ∀ last ∈ r.unprocessed.getLast?,
      if last.outside then last.code ≤ 0 → 0 < last.pid → last.pid ∉ r.registered
      else if last.pid ∈ r.registered then ∀ s ∈ r.unprocessed, s.outside = false
      else ∃ s ∈ r.unprocessed, s.outside = true))
  | .send .. | .deliver _ | .interrupted | .task _ => inferInstanceAs (Decidable True)

/-! ### What the loop keeps -/

/-- The registered pids are those with an entry. -/
private theorem Sane.register {F : Family} {w : TaskWorld} (h : F.Sane w) {e : TaskEvent} (hp : F.Possible w e)
    {b : PtraceBackend}
    {pids : Finset Int} (hpids : ∀ pid, pid ∈ pids ↔ (b.procs pid).isSome) (pid : Int) :
    pid ∈ F.register pids e ↔ ((F.handle b e).1.procs pid).isSome := by
  cases e with
  | spawn c => exact hpids pid
  | vanish t => exact hpids pid
  | forkEvent t c cwd cmdline view =>
    obtain ⟨-, ⟨ps, -, hchild⟩, hparent, hothers⟩ :=
      b.handleReport_fork view (F.pid t) (F.pid_range c).1.ne' (h.pid_ne hp) cwd cmdline
    simp only [Family.register, handle, Finset.mem_insert]
    by_cases hc : pid = F.pid c
    · simp [hc, hchild]
    · by_cases ht : pid = F.pid t
      · simp [ht, hparent]
      · simp [hc, ht, hothers pid ht hc, hpids]
  | report t status view =>
    simp only [Family.register, handle]
    cases hends : status.ends with
    | true =>
      obtain ⟨x, -, -, hprocs⟩ := b.handleReport_ends view (F.pid t) hends
      by_cases ht : pid = F.pid t <;> simp [hprocs, ht, hpids]
    | false =>
      cases status with
      | exited code => cases hends
      | signaled sig => cases hends
      | stopped stop =>
        obtain ⟨ps, -, hprocs⟩ := b.handleReport_own view (F.pid t) hp.2
        by_cases ht : pid = F.pid t <;> simp [hprocs, ht, hpids]

/-- The handler's record is that of the last unprocessed signal, and the registered pids have the entries. -/
structure LoopKept (r : LoopRun) : Prop where
  sane : F.Sane r.tracing.world
  registered : ∀ pid, pid ∈ r.registered ↔ (r.tracing.backend.procs pid).isSome
  inside : ∀ s ∈ r.inFlight ++ r.unprocessed, s.outside = false → s.code ≤ 0 ∧ 0 < s.pid
  count : r.record.count = 0 ↔ r.unprocessed = []
  last : ∀ s ∈ r.unprocessed.getLast?, r.record.pid = s.pid ∧ r.record.code = s.code

namespace LoopKept
variable {F} {r : LoopRun} (h : F.LoopKept r)
include h

theorem step {e : LoopEvent} (hp : F.LoopPossible r e) : F.LoopKept (F.loopStep r e) := by
  cases e with
  | send sender sig code =>
    refine ⟨h.sane, h.registered, fun s hs hin => ?_, h.count, h.last⟩
    simp only [loopStep, List.append_assoc, List.mem_append, List.mem_singleton] at hs
    rcases hs with hs | rfl | hs
    · exact h.inside s (List.mem_append_left _ hs) hin
    · cases sender with
      | traced t => exact ⟨hp.2.1, (F.pid_range t).1⟩
      | other pid => cases hin
    · exact h.inside s (List.mem_append_right _ hs) hin
  | deliver i =>
    simp only [loopStep]
    cases hs : r.inFlight[i]? with
    | none => exact h
    | some s =>
      refine ⟨h.sane, h.registered, fun u hu hin => ?_, iff_of_false ?_ (by simp), fun t ht => ?_⟩
      · simp only [List.mem_append, List.mem_singleton] at hu
        rcases hu with hu | hu | rfl
        · exact h.inside u (List.mem_append_left _ (List.mem_of_mem_eraseIdx hu)) hin
        · exact h.inside u (List.mem_append_right _ hu) hin
        · exact h.inside u (List.mem_append_left _ (List.mem_of_getElem? hs)) hin
      · simp only [signalHandler]
        split <;> omega
      · obtain rfl : s = t := by simpa using ht
        exact ⟨rfl, rfl⟩
  | check now later =>
    refine ⟨h.sane, h.registered, fun s hs hin => ?_, iff_of_true rfl rfl, fun s hs => (by cases hs)⟩
    exact h.inside s (List.mem_append_left _ (by simpa [loopStep] using hs)) hin
  | interrupted => exact ⟨h.sane, h.registered, h.inside, h.count, h.last⟩
  | task e => exact ⟨h.sane.step hp.1, h.sane.register hp.1 h.registered, h.inside, h.count, h.last⟩

/-- The lookup of a sender finds the registered ones. -/
private theorem tracks_iff (s : SentSignal) :
    r.tracing.backend.tracks s.pid s.code = true ↔ s.code ≤ 0 ∧ 0 < s.pid ∧ s.pid ∈ r.registered := by
  rw [PtraceBackend.tracks, Bool.and_eq_true, decide_eq_true_eq, h.registered, and_assoc]

/-- What the check decides. -/
private theorem stops_iff (e : LoopEvent) : F.StopsForOutside r e ↔ LastSenderTells r e := by
  cases e with
  | check now later =>
    apply imp_congr_right
    intro hrunning
    simp only [loopStep, StopControl.drainTimeout_running, StopControl.takeSignal_running, hrunning, Bool.true_and]
    cases hlast : r.unprocessed.getLast? with
    | none =>
      have hnone : r.unprocessed = [] := List.getLast?_eq_none_iff.mp hlast
      simp [hnone, h.count.mpr hnone]
    | some s =>
      obtain ⟨hpid, hcode⟩ := h.last s hlast
      have hs : s ∈ r.unprocessed := List.mem_of_getLast? hlast
      have hcount : r.record.count ≠ 0 := fun hzero => by simp [h.count.mp hzero] at hlast
      have hfound := h.tracks_iff s
      simp only [hpid, hcode, Option.mem_def, Option.some.injEq, forall_eq', beq_false_of_ne hcount, Bool.false_or]
      cases hout : s.outside with
      | true =>
        have hsome : ∃ s ∈ r.unprocessed, s.outside = true := ⟨s, hs, hout⟩
        rw [if_pos rfl, iff_true_right hsome, ← Bool.not_eq_true, hfound]
        simp only [not_and]
      | false =>
        obtain ⟨hle, hpos⟩ := h.inside s (List.mem_append_right _ hs) hout
        rw [if_neg (by simp)]
        by_cases hreg : s.pid ∈ r.registered
        · simp [hreg, hfound.mpr ⟨hle, hpos, hreg⟩]
        · have hlost : r.tracing.backend.tracks s.pid s.code = false := by
            rw [← Bool.not_eq_true, hfound]
            exact fun hall => hreg hall.2.2
          simp [hreg, hlost]
  | deliver i =>
    refine iff_of_true (fun hrunning => ?_) trivial
    simp only [loopStep]
    split <;> exact hrunning
  | _ => exact iff_of_true (fun hrunning => hrunning) trivial

end LoopKept

private theorem loopKept_start (procsOnly seccompMode : Bool) (view : TraceeView) :
    F.LoopKept (F.startLoop procsOnly seccompMode view) := by
  refine ⟨sane_start, fun pid => ?_, fun s hs => (by cases hs), iff_of_true rfl rfl, fun s hs => (by cases hs)⟩
  by_cases hpid : pid = F.pid 0 <;>
    simp [startLoop, start, PtraceBackend.start, PtraceBackend.track, hpid]

/-- In every run the trace stops for the signals from outside, and for no others, exactly if at each check the sender
of the last unprocessed signal tells of them. -/
theorem stops_for_outside (F : Family) (procsOnly seccompMode : Bool) (view : TraceeView) (es : List LoopEvent)
    (hp : Runs.Along F.loopStep F.LoopPossible (F.startLoop procsOnly seccompMode view) es) :
    Runs.Along F.loopStep F.StopsForOutside (F.startLoop procsOnly seccompMode view) es ↔
      Runs.Along F.loopStep LastSenderTells (F.startLoop procsOnly seccompMode view) es := by
  apply Runs.Along.iff_of_invariant (I := F.LoopKept) ?_ ?_ (F.loopKept_start procsOnly seccompMode view) hp
  · intro r e h hpe _
    exact h.step hpe
  · intro r e h _
    exact h.stops_iff e

/-- The events that register a child which then runs. -/
def runningChild : List LoopEvent :=
  [.check 0 0, .task (.spawn 1), .task (.forkEvent 0 1 [] [] {}), .check 0 0,
    .task (.report 1 (.stopped (.signal sigstop)) {})]

/-- `kill 0` in a build step while the trace runs, and then Ctrl-C. -/
def internalThenOutside : List LoopEvent :=
  runningChild ++ [.send (.traced 1) 15 0, .deliver 0, .check 0 0, .interrupted, .send (.other 0) 2 128, .deliver 0,
    .check 0 0]

theorem stops_for_outside_internalThenOutside :
    Runs.Along reusedChild.loopStep reusedChild.StopsForOutside (reusedChild.startLoop false false {})
      internalThenOutside :=
  (stops_for_outside reusedChild false false {} internalThenOutside (by decide)).mpr (by decide)

/-- A user's SIGTERM followed by a build step's SIGINT, and a SIGTERM of a build step that exits right after. -/
def misjudged : List (List LoopEvent) :=
  [runningChild ++ [.send (.other 500) 15 0, .deliver 0, .send (.traced 1) 2 0, .deliver 0, .check 0 0],
    runningChild ++ [.check 0 0, .send (.traced 1) 15 0, .deliver 0, .task (.report 1 (.exited 0) {}), .check 0 0]]

/-- The first one does not stop the trace, the second one does. -/
theorem signals_misjudged : misjudged.Forall (fun es =>
    Runs.Along reusedChild.loopStep reusedChild.LoopPossible (reusedChild.startLoop false false {}) es ∧
      ¬Runs.Along reusedChild.loopStep reusedChild.StopsForOutside (reusedChild.startLoop false false {}) es) ∧
    misjudged.map
      (fun es => (Runs.run reusedChild.loopStep (reusedChild.startLoop false false {}) es).control.running) =
      [true, false] := by
  decide

end Family
end Bdtrace
