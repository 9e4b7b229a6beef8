import Bdtrace.Tracer.SignalStops

/-! Which restarts an iteration of the event loop requests, with its retries. -/
namespace Bdtrace

/-- PTRACE_CONT or PTRACE_SYSCALL on a task. -/
structure Request where
  restart : Restart
  pid : Int
  sig : Int
  deriving DecidableEq, Repr

/-- What `kick_if_stuck` looks at: the state in `/proc`, and whether `waitid` finds a notification of the task. -/
structure Probe where
  state : Str
  queued : Bool
  deriving DecidableEq, Repr

def tracingWord : Str := "tracing".toList

def Probe.tracing (p : Probe) : Bool := decide (tracingWord <:+: p.state)

/-- In a ptrace-stop that no notification announces. -/
def Probe.stuck (p : Probe) : Bool := p.tracing && !p.queued

/-- A request that answers a stop, or a retry with what was seen before it. -/
inductive Sent where
  | answer (req : Request)
  | kick (req : Request) (probe : Probe)
  deriving DecidableEq, Repr

namespace Sent

def request : Sent → Request
  | answer req => req
  | kick req _ => req

def answered : Sent → Option Request
  | answer req => some req
  | kick _ _ => none

end Sent

/-- The kernel, as far as requests and probes can tell. -/
structure Kernel (κ : Type) where
  look : Int → κ → Probe × κ
  send : Request → κ → κ

/-- The kernel with the requests made so far, and the counter of `BDTRACE_TEST_DROP_RESUME`. -/
structure Sending (κ : Type) where
  kernel : κ
  resumeCount : Int := 0
  sent : List Sent := []

section Requests
variable {κ : Type} (K : Kernel κ)

def Sending.put (s : Sending κ) (m : Sent) : Sending κ :=
  { s with kernel := K.send m.request s.kernel, sent := s.sent ++ [m] }

/-- `kick_if_stuck`, with the attempts that are left. -/
def kickAttempts (restart : Restart) (pid sig : Int) : Nat → Sending κ → Sending κ
  | 0, s => s
  | n + 1, s =>
    let seen := K.look pid s.kernel
    let s := { s with kernel := seen.2 }
    if seen.1.stuck then kickAttempts restart pid sig n (s.put K (.kick ⟨restart, pid, sig⟩ seen.1)) else s

def kickIfStuck (b : PtraceBackend) (pid sig : Int) (s : Sending κ) : Sending κ :=
  kickAttempts K (resumeRequest b.procsOnly b.seccompMode) pid sig 3 s

/-- The environment variable names the next resume as the one to drop; -1 stands for its absence. -/
def dropsNext (dropNth resumeCount : Int) : Prop := 0 ≤ dropNth ∧ resumeCount + 1 = dropNth

instance (dropNth resumeCount : Int) : Decidable (dropsNext dropNth resumeCount) := inferInstanceAs (Decidable (_ ∧ _))

/-- `resume`. -/
def PtraceBackend.sendResume (b : PtraceBackend) (dropNth : Int) (pid sig : Int) (s : Sending κ) : Sending κ :=
  let dropped := dropsNext dropNth s.resumeCount
  let s := { s with resumeCount := if 0 ≤ dropNth then s.resumeCount + 1 else s.resumeCount }
  let s := if dropped then s else s.put K (.answer ⟨resumeRequest b.procsOnly b.seccompMode, pid, sig⟩)
  if b.procsOnly then kickIfStuck K b pid sig s else s

/-- How the branches of `run_event_loop` restart the task. -/
def PtraceBackend.answerStop (b : PtraceBackend) (dropNth : Int) (view : TraceeView) (pid : Int) (ps : ProcessState)
    (s : Sending κ) : Stop → Sending κ
  | .seccomp => s.put K (.answer ⟨(handleSeccompStop view ps).2, pid, 0⟩)
  | .signal sig =>
    if sig = sigstop ∧ ps.traced = false then
      let s := b.sendResume K dropNth pid 0 s
      if b.procsOnly then s else kickIfStuck K b pid 0 s
    else b.sendResume K dropNth pid sig s
  | _ => b.sendResume K dropNth pid 0 s

/-- WIFSTOPPED. -/
def wifstopped (status : Nat) : Prop := status % 256 = 0x7f

instance (status : Nat) : Decidable (wifstopped status) := inferInstanceAs (Decidable (_ = _))

/-- The tests on the status that `waitpid` returns; `none` is neither a death nor a stop. -/
def decodeStatus (status : Nat) (data : StopData) : Option WaitStatus :=
  if status % 128 = 0 then some (.exited (status / 256 % 256))
  else if status % 128 ≠ 127 then some (.signaled (status % 128))
  else if wifstopped status then some (.stopped (decodeStop status data))
  else none

/-- The iteration that consumes a report. -/
def PtraceBackend.iterate (b : PtraceBackend) (dropNth : Int) (view : TraceeView) (data : StopData)
    (pid : Int) (status : Nat)
    (s : Sending κ) : Handled × Sending κ :=
  match decodeStatus status data with
  | none => ({ backend := b.track pid (b.entry pid) }, s)
  | some (.stopped stop) =>
    (b.handleReport view pid (.stopped stop), b.answerStop K dropNth view pid (b.entry pid) s stop)
  | some ended => (b.handleReport view pid ended, s)

/-! ### What is sent -/

variable {K}

/-- Retries of a request, each while the task is seen stuck. -/
def Kicks (req : Request) (ms : List Sent) : Prop := ∀ m ∈ ms, ∃ p, m = .kick req p ∧ p.stuck = true

private theorem kicks_nil (req : Request) : Kicks req [] := fun _ hm => by cases hm

theorem Kicks.answered {req : Request} {ms : List Sent} (h : Kicks req ms) : ms.filterMap Sent.answered = [] := by
  apply List.filterMap_eq_nil_iff.mpr
  intro m hm
  obtain ⟨p, rfl, -⟩ := h m hm
  rfl

private theorem kickAttempts_sent (restart : Restart) (pid sig : Int) (n : Nat) (s : Sending κ) :
    ∃ ms, (kickAttempts K restart pid sig n s).sent = s.sent ++ ms ∧ Kicks ⟨restart, pid, sig⟩ ms := by
  induction n generalizing s with
  | zero => exact ⟨[], (List.append_nil _).symm, kicks_nil _⟩
  | succ n ih =>
    rw [kickAttempts]
    split
    · rename_i hstuck
      obtain ⟨ms, hsent, hms⟩ := ih (Sending.put K { s with kernel := (K.look pid s.kernel).2 }
        (.kick ⟨restart, pid, sig⟩ (K.look pid s.kernel).1))
      refine ⟨.kick ⟨restart, pid, sig⟩ (K.look pid s.kernel).1 :: ms, ?_, ?_⟩
      · rw [hsent, Sending.put, List.append_assoc, List.singleton_append]
      · intro m hm
        rcases List.mem_cons.mp hm with rfl | hm
        · exact ⟨_, rfl, hstuck⟩
        · exact hms m hm
    · exact ⟨[], (List.append_nil _).symm, kicks_nil _⟩

private theorem sendResume_sent (b : PtraceBackend) (dropNth pid sig : Int) (s : Sending κ) :
    ∃ ms, (b.sendResume K dropNth pid sig s).sent = s.sent ++ (if dropsNext dropNth s.resumeCount then []
        else [.answer ⟨resumeRequest b.procsOnly b.seccompMode, pid, sig⟩]) ++ ms ∧
      Kicks ⟨resumeRequest b.procsOnly b.seccompMode, pid, sig⟩ ms := by
  rw [PtraceBackend.sendResume]
  generalize hs : (if dropsNext dropNth s.resumeCount then _ else _ : Sending κ) = answered
  have hanswered : answered.sent = s.sent ++ if dropsNext dropNth s.resumeCount then []
      else [.answer ⟨resumeRequest b.procsOnly b.seccompMode, pid, sig⟩] := by
    rw [← hs]
    split
    · exact (List.append_nil _).symm
    · rfl
  rw [← hanswered]
  split
  · exact kickAttempts_sent _ _ _ _ _
  · exact ⟨[], (List.append_nil _).symm, kicks_nil _⟩

theorem Kicks.append {req : Request} {ms ms' : List Sent} (h : Kicks req ms) (h' : Kicks req ms') :
    Kicks req (ms ++ ms') :=
  fun m hm => (List.mem_append.mp hm).elim (h m) (h' m)

/-- Each branch answers the stop as `handleReport` says, unless the answer is the resume to be dropped; a seccomp stop
is answered without `resume`. -/
theorem answerStop_sent (b : PtraceBackend) (dropNth : Int) (view : TraceeView) (pid : Int)
    (s : Sending κ) (stop : Stop) :
    ∃ req ms, (b.handleReport view pid (.stopped stop)).restart = some (req.restart, req.sig) ∧ req.pid = pid ∧
      (b.answerStop K dropNth view pid (b.entry pid) s stop).sent =
        s.sent ++ (if dropsNext dropNth s.resumeCount ∧ stop ≠ .seccomp then [] else [.answer req]) ++ ms ∧
          Kicks req ms ∧
      (stop = .seccomp → ms = [] ∧ req.restart = (handleSeccompStop view (b.entry pid)).2) ∧
      (stop ≠ .seccomp → req.restart = resumeRequest b.procsOnly b.seccompMode) := by
  have hresume : ∀ sig, stop ≠ .seccomp → ∃ ms, (b.sendResume K dropNth pid sig s).sent =
      s.sent ++ (if dropsNext dropNth s.resumeCount ∧ stop ≠ .seccomp then []
        else [.answer ⟨resumeRequest b.procsOnly b.seccompMode, pid, sig⟩]) ++ ms ∧
        Kicks ⟨resumeRequest b.procsOnly b.seccompMode, pid, sig⟩ ms := by
    intro sig hstop
    simp only [hstop, not_false_eq_true, and_true, ne_eq]
    exact sendResume_sent b dropNth pid sig s
  cases stop with
  | seccomp =>
    refine ⟨⟨(handleSeccompStop view (b.entry pid)).2, pid, 0⟩, [], rfl, rfl, ?_, kicks_nil _, fun _ => ⟨rfl, rfl⟩,
      fun h => absurd rfl h⟩
    rw [if_neg fun h => h.2 rfl, List.append_nil]
    rfl
  | signal sig =>
    by_cases hfirst : sig = sigstop ∧ (b.entry pid).traced = false
    · obtain ⟨ms, hsent, hms⟩ := hresume 0 (by simp)
      rw [b.handleReport_signal_restart, if_pos hfirst, PtraceBackend.answerStop, if_pos hfirst]
      by_cases hprocs : b.procsOnly
      · rw [if_pos hprocs]
        exact ⟨_, ms, rfl, rfl, hsent, hms, fun h => (by cases h), fun _ => rfl⟩
      · rw [if_neg hprocs]
        obtain ⟨ms', hsent', hms'⟩ := kickAttempts_sent (K := K) (resumeRequest b.procsOnly b.seccompMode) pid 0 3
          (b.sendResume K dropNth pid 0 s)
        refine ⟨_, ms ++ ms', rfl, rfl, ?_, hms.append hms', fun h => (by cases h), fun _ => rfl⟩
        rw [kickIfStuck, hsent', hsent, List.append_assoc]
    · obtain ⟨ms, hsent, hms⟩ := hresume sig (by simp)
      rw [b.handleReport_signal_restart, if_neg hfirst, PtraceBackend.answerStop, if_neg hfirst]
      exact ⟨_, ms, rfl, rfl, hsent, hms, fun h => (by cases h), fun _ => rfl⟩
  | _ =>
    obtain ⟨ms, hsent, hms⟩ := hresume 0 (by simp)
    exact ⟨_, ms, rfl, rfl, hsent, hms, fun h => (by cases h), fun _ => rfl⟩

/-- Every stop gets one answer, from which only the fault injection of `resume` is exempt; deaths get none, and nothing
goes to another task. Retries are made while the task is seen stuck. -/
structure AnsweredOnce (b : PtraceBackend) (dropNth resumeCount : Int) (view : TraceeView) (data : StopData) (pid : Int)
    (status : Nat) (sent : List Sent) : Prop where
  once : wifstopped status → ∃ req,
    (b.handleReport view pid (.stopped (decodeStop status data))).restart = some (req.restart, req.sig) ∧
      req.pid = pid ∧
      sent.filterMap Sent.answered =
        if dropsNext dropNth resumeCount ∧ decodeStop status data ≠ .seccomp then [] else [req]
  ended : ¬wifstopped status → sent = []
  own : ∀ m ∈ sent, m.request.pid = pid
  kicks : ∀ req p, .kick req p ∈ sent → tracingWord <:+: p.state ∧ p.queued = false
  syscall : b.seccompMode = true ∨ b.procsOnly = true → ∀ m ∈ sent, m.request.restart = .syscall →
    (∃ req, m = .answer req) ∧ decodeStop status data = .seccomp ∧
      ∃ regs, view.regs = some regs ∧ (decodeSyscallEntry (b.entry pid) regs regs.origRax).exitNeeded = true

theorem decodeStatus_stopped {status : Nat} (h : wifstopped status) (data : StopData) :
    decodeStatus status data = some (.stopped (decodeStop status data)) := by
  have hlow : status % 128 = 127 := by
    rw [wifstopped] at h
    omega
  rw [decodeStatus, if_neg (by omega), if_neg (not_not.mpr hlow), if_pos h]

theorem decodeStatus_ended {status : Nat} (h : ¬wifstopped status) (data : StopData) :
    ∀ stop, decodeStatus status data ≠ some (.stopped stop) := by
  intro stop hstop
  rw [decodeStatus] at hstop
  split at hstop
  · cases hstop
  · split at hstop
    · cases hstop
    · cases hstop

/-- A seccomp stop asks for the exit stop only if it must be inspected. -/
private theorem handleSeccompStop_syscall {view : TraceeView} {ps : ProcessState}
    (h : (handleSeccompStop view ps).2 = .syscall) :
    ∃ regs, view.regs = some regs ∧ (decodeSyscallEntry ps regs regs.origRax).exitNeeded = true := by
  rw [handleSeccompStop] at h
  split at h
  · cases h
  · rename_i regs hregs
    refine ⟨regs, hregs, ?_⟩
    by_contra hneeded
    simp [hneeded] at h

private theorem stuck_iff (p : Probe) : p.stuck = true ↔ tracingWord <:+: p.state ∧ p.queued = false := by
  simp only [Probe.stuck, Probe.tracing, Bool.and_eq_true, decide_eq_true_eq, Bool.not_eq_true']

/-- Whatever the mode, the tracker's state, the status and the kernel: the iteration that consumes a report answers a
stop once, and a death not at all. -/
theorem iterate_answersOnce (K : Kernel κ) (b : PtraceBackend) (dropNth resumeCount : Int) (view : TraceeView)
    (data : StopData) (pid : Int) (status : Nat) (k : κ) :
    AnsweredOnce b dropNth resumeCount view data pid status
      (b.iterate K dropNth view data pid status { kernel := k, resumeCount := resumeCount }).2.sent := by
  by_cases hstopped : wifstopped status
  · simp only [PtraceBackend.iterate, decodeStatus_stopped hstopped]
    obtain ⟨req, ms, hrestart, hpid, hsent, hms, hseccomp, hother⟩ := answerStop_sent (K := K) b dropNth view pid
      { kernel := k, resumeCount := resumeCount } (decodeStop status data)
    rw [hsent, List.nil_append]
    have hmem : ∀ m ∈ (if dropsNext dropNth resumeCount ∧ decodeStop status data ≠ .seccomp then []
        else [Sent.answer req]) ++ ms, m = .answer req ∨ ∃ p, m = .kick req p ∧ p.stuck = true := by
      intro m hm
      rcases List.mem_append.mp hm with hm | hm
      · split at hm
        · cases hm
        · exact .inl (List.mem_singleton.mp hm)
      · exact .inr (hms m hm)
    refine ⟨fun _ => ⟨req, hrestart, hpid, ?_⟩, fun h => absurd hstopped h, ?_, ?_, ?_⟩
    · rw [List.filterMap_append, hms.answered, List.append_nil]
      split
      · rfl
      · rfl
    · intro m hm
      rcases hmem m hm with rfl | ⟨p, rfl, -⟩
      · exact hpid
      · exact hpid
    · intro req' p hm
      rcases hmem _ hm with heq | ⟨p', heq, hstuck⟩
      · cases heq
      · cases heq
        exact (stuck_iff p).mp hstuck
    · intro hmode m hm hsyscall
      have hreq : req.restart = .syscall := by
        rcases hmem m hm with rfl | ⟨p, rfl, -⟩
        · exact hsyscall
        · exact hsyscall
      by_cases hstop : decodeStop status data = .seccomp
      · obtain ⟨rfl, hsecond⟩ := hseccomp hstop
        rw [List.append_nil, if_neg fun h => h.2 hstop] at hm
        exact ⟨⟨req, List.mem_singleton.mp hm⟩, hstop, handleSeccompStop_syscall (hsecond.symm.trans hreq)⟩
      · have hcont : resumeRequest b.procsOnly b.seccompMode = .cont := by
          rcases hmode with hmode | hmode
          · simp [resumeRequest, hmode]
          · simp [resumeRequest, hmode]
        rw [hother hstop, hcont] at hreq
        cases hreq
  · have hended := decodeStatus_ended hstopped data
    have hnone :
        (b.iterate K dropNth view data pid status { kernel := k, resumeCount := resumeCount }).2.sent = [] := by
      rw [PtraceBackend.iterate]
      split
      · rfl
      · rename_i stop hstop
        exact absurd hstop (hended stop)
      · rfl
    rw [hnone]
    refine ⟨fun h => absurd h hstopped, fun _ => rfl, ?_, ?_, ?_⟩
    · intro m hm
      cases hm
    · intro req p hm
      cases hm
    · intro _ m hm
      cases hm

end Requests

/-- A kernel whose tasks are running whenever they are looked at. -/
def promptKernel : Kernel Unit where
  look _ k := (⟨['S'], false⟩, k)
  send _ k := k

/-- With `BDTRACE_TEST_DROP_RESUME=1` the first stop gets no answer. -/
theorem iterate_dropped : wifstopped (signalStatus 17) ∧
    (({} : PtraceBackend).iterate promptKernel 1 {} {} 20 (signalStatus 17) ⟨(), 0, []⟩).2.sent = [] ∧
    (({} : PtraceBackend).iterate promptKernel (-1) {} {} 20 (signalStatus 17) ⟨(), 0, []⟩).2.sent =
      [.answer ⟨.syscall, 20, 17⟩] := by
  decide

end Bdtrace
