import Bdtrace.Tracer.LostResumes

/-! What retries and the watchdog achieve: no task that the tracer looks after stays stopped. -/
namespace Bdtrace

/-- The kernel never loses a request and both its repetitions, which come after a probe each. -/
def Fates.Recovers (f : Fates) : Prop := ∀ n, f.lost n = true → f.lost (n + 2) = true → f.lost (n + 4) = false

namespace Tracees
variable {f : Fates} {k : Tracees}

/-- The task is not left stopped: it runs, is gone, or has a report to come. -/
def Free (k : Tracees) (pid : Int) : Prop := (k.task pid).phase ≠ .held

theorem Free.put {q : Int} (h : k.Free q) {pid : Int} {t : Tracee} (ht : t.phase ≠ .held) : (k.put pid t).Free q := by
  by_cases hq : q = pid
  · subst hq
    rw [Free, put_self]
    exact ht
  · rw [Free, put_of_ne hq]
    exact h

private theorem move_free {q : Int} (h : k.Free q) (m : Move) : (k.move m).Free q := by
  cases m with
  | stops pid status =>
    simp only [move]
    split
    · exact h.put (by simp)
    · exact h
  | dies pid status =>
    simp only [move]
    split
    · exact h.put (by simp)
    · exact h
  | «begins» pid =>
    simp only [move]
    split
    · exact h.put (by simp)
    · exact h

private theorem pass_free {q : Int} (h : k.Free q) : (k.pass f).Free q :=
  pass_invariant (P := fun k => k.Free q) (fun _ m h => move_free h m) (fun _ _ h => h) h

private theorem restart_free {q : Int} (h : k.Free q) (pid sig : Int) : (k.restart pid sig).Free q := by
  rw [restart]
  split
  · exact h.put (by simp)
  · exact h.put (by simp)
  · exact h

/-- A restart frees its task. -/
private theorem restart_self (k : Tracees) (pid sig : Int) : (k.restart pid sig).Free pid := by
  rw [restart]
  split
  · rw [Free, put_self]
    simp
  · rw [Free, put_self]
    simp
  · rename_i hheld
    exact fun h => hheld h

private theorem restart_halted {q pid sig : Int} (h : k.Halted q) (hne : pid ≠ q) : (k.restart pid sig).Halted q := by
  rw [restart]
  split
  · rw [Halted, put_of_ne hne.symm]
    exact h
  · rw [Halted, put_of_ne hne.symm]
    exact h
  · exact h

@[simp] theorem pass_clock : (k.pass f).clock = k.clock + 1 := rfl

end Tracees

/-! ### Retries -/

section Requests
variable {f : Fates}

private theorem send_free {k : Tracees} {q : Int} (h : k.Free q) (req : Request) :
    ((lossyKernel f).send req k).Free q := by
  simp only [lossyKernel]
  split
  · exact Tracees.pass_free h
  · exact Tracees.restart_free (Tracees.pass_free h) req.pid req.sig

private theorem send_frees {k : Tracees} (req : Request) (h : f.lost k.clock = false) :
    ((lossyKernel f).send req k).Free req.pid := by
  simp only [lossyKernel, h]
  exact Tracees.restart_self _ req.pid req.sig

private theorem send_halted {k : Tracees} {q : Int} (h : k.Halted q) (req : Request) (hne : req.pid ≠ q) :
    ((lossyKernel f).send req k).Halted q := by
  simp only [lossyKernel]
  split
  · exact Tracees.pass_halted h
  · exact Tracees.restart_halted (Tracees.pass_halted h) hne

private theorem send_clock (k : Tracees) (req : Request) (h : f.lost k.clock = true) :
    ((lossyKernel f).send req k).clock = k.clock + 1 := by
  simp only [lossyKernel, h, if_true]
  exact Tracees.pass_clock

private theorem kickAttempts_free (restart : Restart) (pid sig : Int) (n : Nat) {s : Sending Tracees} {q : Int}
    (h : s.kernel.Free q) : (kickAttempts (lossyKernel f) restart pid sig n s).kernel.Free q := by
  induction n generalizing s with
  | zero => exact h
  | succ n ih =>
    have hpass : (s.kernel.pass f).Free q := Tracees.pass_free h
    rw [kickAttempts]
    split
    · apply ih
      exact send_free hpass ⟨restart, pid, sig⟩
    · exact hpass

private theorem kickAttempts_halted (restart : Restart) (pid sig : Int) (n : Nat) {s : Sending Tracees}
    {q : Int} (hne : pid ≠ q)
    (h : s.kernel.Halted q) : (kickAttempts (lossyKernel f) restart pid sig n s).kernel.Halted q := by
  induction n generalizing s with
  | zero => exact h
  | succ n ih =>
    have hpass : (s.kernel.pass f).Halted q := Tracees.pass_halted h
    rw [kickAttempts]
    split
    · apply ih
      exact send_halted hpass ⟨restart, pid, sig⟩ hne
    · exact hpass

/-- One attempt that is not lost is enough. -/
private theorem kickAttempts_frees (restart : Restart) (pid sig : Int) (n : Nat) {s : Sending Tracees}
    (h : ∃ i < n, f.lost (s.kernel.clock + 2 * i + 1) = false) :
    (kickAttempts (lossyKernel f) restart pid sig n s).kernel.Free pid := by
  induction n generalizing s with
  | zero =>
    obtain ⟨i, hi, -⟩ := h
    exact absurd hi (Nat.not_lt_zero i)
  | succ n ih =>
    rw [kickAttempts]
    split
    · by_cases hlost : f.lost (s.kernel.clock + 1) = true
      · apply ih
        obtain ⟨i, hi, hfound⟩ := h
        cases i with
        | zero =>
          rw [Nat.mul_zero, Nat.add_zero, hlost] at hfound
          cases hfound
        | succ i =>
          refine ⟨i, Nat.lt_of_succ_lt_succ hi, ?_⟩
          have hclock : ((lossyKernel f).send ⟨restart, pid, sig⟩ (s.kernel.pass f)).clock = s.kernel.clock + 2 := by
            rw [send_clock _ _ (by rw [Tracees.pass_clock]; exact hlost), Tracees.pass_clock]
          rw [← hfound]
          congr 1
          simp only [Sending.put, lossyKernel, Sent.request] at hclock ⊢
          rw [hclock]
          omega
      · apply kickAttempts_free
        apply send_frees
        simp only [lossyKernel, Tracees.pass_clock]
        simpa using hlost
    · rename_i hfree
      rw [lossyKernel, Tracees.probe_stuck, decide_eq_true_eq] at hfree
      exact hfree

private theorem kickIfStuck_frees (hf : f.Recovers) (b : PtraceBackend) (pid sig : Int) (s : Sending Tracees) :
    (kickIfStuck (lossyKernel f) b pid sig s).kernel.Free pid := by
  apply kickAttempts_frees
  by_contra hall
  simp only [not_exists, not_and, Bool.not_eq_false] at hall
  have hlast := hf _ (hall 0 (by omega)) (hall 1 (by omega))
  have hthird := hall 2 (by omega)
  rw [show s.kernel.clock + 2 * 0 + 1 + 4 = s.kernel.clock + 2 * 2 + 1 by omega, hthird] at hlast
  cases hlast

/-! ### The answer to a stop -/

private theorem kickIfStuck_free (b : PtraceBackend) (pid sig : Int) {s : Sending Tracees} {q : Int}
    (h : s.kernel.Free q) :
    (kickIfStuck (lossyKernel f) b pid sig s).kernel.Free q :=
  kickAttempts_free _ pid sig 3 h

private theorem sendResume_free (b : PtraceBackend) (dropNth pid sig : Int) {s : Sending Tracees} {q : Int}
    (h : s.kernel.Free q) :
    (b.sendResume (lossyKernel f) dropNth pid sig s).kernel.Free q := by
  have hanswered : ∀ n : Int, (if dropsNext dropNth s.resumeCount then { s with resumeCount := n }
      else Sending.put (lossyKernel f) { s with resumeCount := n }
        (.answer ⟨resumeRequest b.procsOnly b.seccompMode, pid, sig⟩) : Sending Tracees).kernel.Free q := by
    intro n
    split
    · exact h
    · exact send_free h _
  rw [PtraceBackend.sendResume]
  split
  · exact kickIfStuck_free b pid sig (hanswered _)
  · exact hanswered _

private theorem answerStop_free (b : PtraceBackend) (dropNth : Int) (view : TraceeView) (pid : Int)
    (ps : ProcessState) (stop : Stop)
    {s : Sending Tracees} {q : Int} (h : s.kernel.Free q) :
    (b.answerStop (lossyKernel f) dropNth view pid ps s stop).kernel.Free q := by
  cases stop with
  | seccomp => exact send_free h _
  | signal sig =>
    rw [PtraceBackend.answerStop]
    dsimp only
    split
    · split
      · exact sendResume_free b dropNth pid 0 h
      · exact kickIfStuck_free b pid 0 (sendResume_free b dropNth pid 0 h)
    · exact sendResume_free b dropNth pid sig h
  | _ => exact sendResume_free b dropNth pid 0 h

/-- Where answers are checked, or neither lost nor dropped, they free their task. -/
def Answers (f : Fates) (dropNth : Int) (b : PtraceBackend) : Prop :=
  (b.procsOnly = true ∧ f.Recovers) ∨ (dropNth < 0 ∧ ∀ n, f.lost n = false)

private theorem sendResume_frees {dropNth : Int} {b : PtraceBackend} (h : Answers f dropNth b) (pid sig : Int)
    (s : Sending Tracees) :
    (b.sendResume (lossyKernel f) dropNth pid sig s).kernel.Free pid := by
  rw [PtraceBackend.sendResume]
  rcases h with ⟨hprocs, hf⟩ | ⟨hdrop, hf⟩
  · rw [if_pos hprocs]
    exact kickIfStuck_frees hf b pid sig _
  · have hkeeps : ¬dropsNext dropNth s.resumeCount := fun hd => absurd hd.1 (not_le.mpr hdrop)
    simp only [if_neg hkeeps]
    split
    · apply kickIfStuck_free
      exact send_frees _ (hf _)
    · exact send_frees _ (hf _)

/-- The answer to a seccomp stop is not checked. -/
private theorem answerStop_frees {dropNth : Int} {b : PtraceBackend} (h : Answers f dropNth b)
    (view : TraceeView) (pid : Int)
    (ps : ProcessState) {stop : Stop} (hstop : stop = .seccomp → ∀ n, f.lost n = false) (s : Sending Tracees) :
    (b.answerStop (lossyKernel f) dropNth view pid ps s stop).kernel.Free pid := by
  cases stop with
  | seccomp => exact send_frees _ (hstop rfl _)
  | signal sig =>
    rw [PtraceBackend.answerStop]
    dsimp only
    split
    · split
      · exact sendResume_frees h pid 0 s
      · exact kickIfStuck_free b pid 0 (sendResume_frees h pid 0 s)
    · exact sendResume_frees h pid sig s
  | _ => exact sendResume_frees h pid 0 s

/-! ### The recovery scan -/

/-- What the scan does at a pid. -/
private def scanTurn (f : Fates) (b : PtraceBackend) (s : Sending Tracees) (pid : Int) : Sending Tracees :=
  let seen := (lossyKernel f).look pid s.kernel
  let s := { s with kernel := seen.2 }
  if seen.1.tracing then kickIfStuck (lossyKernel f) b pid 0 s else s

private theorem checkStall_eq (b : PtraceBackend) (tracked : List Int) (s : Sending Tracees) :
    checkStall f b tracked s = (tracked.take 256).foldl (scanTurn f b) s := rfl

private theorem scanTurn_free (b : PtraceBackend) (pid : Int) {s : Sending Tracees} {q : Int} (h : s.kernel.Free q) :
    (scanTurn f b s pid).kernel.Free q := by
  have hpass : (s.kernel.pass f).Free q := Tracees.pass_free h
  rw [scanTurn]
  split
  · exact kickIfStuck_free b pid 0 hpass
  · exact hpass

private theorem scanTurn_frees (hf : f.Recovers) (b : PtraceBackend) (pid : Int) (s : Sending Tracees) :
    (scanTurn f b s pid).kernel.Free pid := by
  rw [scanTurn]
  split
  · exact kickIfStuck_frees hf b pid 0 _
  · rename_i hseen
    intro hheld
    apply hseen
    simp only [lossyKernel] at hheld ⊢
    rw [Tracees.probe, hheld]
    decide

private theorem scanTurn_halted (b : PtraceBackend) {pid : Int} {s : Sending Tracees} {q : Int} (hne : pid ≠ q)
    (h : s.kernel.Halted q) : (scanTurn f b s pid).kernel.Halted q := by
  have hpass : (s.kernel.pass f).Halted q := Tracees.pass_halted h
  rw [scanTurn]
  split
  · exact kickAttempts_halted _ pid 0 3 hne hpass
  · exact hpass

private theorem foldl_scanTurn_free (b : PtraceBackend) (scanned : List Int) {s : Sending Tracees} {q : Int}
    (h : s.kernel.Free q) : (scanned.foldl (scanTurn f b) s).kernel.Free q := by
  induction scanned generalizing s with
  | nil => exact h
  | cons pid scanned ih => exact ih (scanTurn_free b pid h)

private theorem checkStall_free (b : PtraceBackend) (tracked : List Int) {s : Sending Tracees} {q : Int}
    (h : s.kernel.Free q) :
    (checkStall f b tracked s).kernel.Free q :=
  foldl_scanTurn_free b _ h

/-- Each of the first 256 is freed in its turn, and stays free. -/
private theorem checkStall_frees (hf : f.Recovers) (b : PtraceBackend) {tracked : List Int} {q : Int}
    (hq : q ∈ tracked.take 256)
    (s : Sending Tracees) : (checkStall f b tracked s).kernel.Free q := by
  obtain ⟨before, after, hsplit⟩ := List.append_of_mem hq
  rw [checkStall_eq, hsplit, List.foldl_append, List.foldl_cons]
  apply foldl_scanTurn_free
  exact scanTurn_frees hf b q _

private theorem checkStall_halted (b : PtraceBackend) {tracked : List Int} {q : Int} (hq : q ∉ tracked.take 256)
    {s : Sending Tracees} (h : s.kernel.Halted q) : (checkStall f b tracked s).kernel.Halted q := by
  rw [checkStall_eq]
  generalize tracked.take 256 = scanned at hq
  induction scanned generalizing s with
  | nil => exact h
  | cons pid scanned ih =>
    rw [List.mem_cons, not_or] at hq
    exact ih (scanTurn_halted b (Ne.symm hq.1) h) hq.2

end Requests

/-! ### Runs -/

namespace LossyRun
variable {f : Fates} {dropNth : Int}

/-- No task is left stopped. -/
def AllFree (r : LossyRun) : Prop := ∀ pid, r.sending.kernel.Free pid

/-- The report, if there is one, is not of a stop at the filter, which `start` installs only for full tracing. -/
def Unfiltered (f : Fates) (r : LossyRun) : LoopStep → Prop
  | .report pid _ data => ∀ status, ((r.sending.kernel.pass f).task pid).phase = .stopped status →
      decodeStop status data ≠ .seccomp
  | .watchdog _ => True

private theorem step_mode (r : LossyRun) (e : LoopStep) :
    (r.step f dropNth e).backend.procsOnly = r.backend.procsOnly := by
  cases e with
  | watchdog tracked => rfl
  | report pid view data =>
    simp only [step]
    split
    · rename_i status _
      simp only [PtraceBackend.iterate, decodeStatus_stopped status.2]
      exact (r.backend.handleReport_mode view pid _).1
    · rename_i status _
      rw [PtraceBackend.iterate]
      split
      · rfl
      · exact (r.backend.handleReport_mode view pid _).1
      · exact (r.backend.handleReport_mode view pid _).1
    · rfl

private theorem step_allFree {r : LossyRun} (h : r.AllFree) (ha : Answers f dropNth r.backend) {e : LoopStep}
    (he : (∀ n, f.lost n = false) ∨ r.Unfiltered f e) : (r.step f dropNth e).AllFree := by
  cases e with
  | watchdog tracked => exact fun q => checkStall_free r.backend tracked (h q)
  | report pid view data =>
    have hpass : ∀ q, (r.sending.kernel.pass f).Free q := fun q => Tracees.pass_free (h q)
    simp only [step]
    split
    · rename_i status hphase
      intro q
      simp only [PtraceBackend.iterate, decodeStatus_stopped status.2]
      by_cases hq : q = pid
      · subst hq
        apply answerStop_frees ha
        intro hseccomp
        rcases he with hlost | hunfiltered
        · exact hlost
        · exact absurd hseccomp (hunfiltered status hphase)
      · apply answerStop_free
        rw [Tracees.Free, Tracees.put_of_ne hq]
        exact hpass q
    · rename_i status hphase
      intro q
      have hgone : ((r.sending.kernel.pass f).put pid
          { (r.sending.kernel.pass f).task pid with phase := .gone }).Free q :=
        (hpass q).put (by simp)
      rw [PtraceBackend.iterate]
      split
      · exact hgone
      · rename_i stop hstop
        exact absurd hstop (decodeStatus_ended status.2 data stop)
      · exact hgone
    · exact hpass

private theorem start_allFree (procsOnly seccompMode : Bool) (tracer root : Int) (view : TraceeView)
    (ha : Answers f dropNth (PtraceBackend.start procsOnly seccompMode tracer root view).backend) :
    (start f dropNth procsOnly seccompMode tracer root view).AllFree := by
  intro q
  by_cases hq : q = root
  · subst hq
    exact sendResume_frees ha q 0 _
  · apply sendResume_free
    rw [Tracees.Free, Tracees.put_of_ne hq]
    simp

/-- The watchdog ticks without a report between them. -/
private theorem run_ticks_halted {q : Int} (ticks : List (List Int)) {r : LossyRun}
    (hq : ∀ tracked ∈ ticks, q ∉ tracked.take 256)
    (h : r.sending.kernel.Halted q) :
    (Runs.run (step f dropNth) r (ticks.map .watchdog)).sending.kernel.Halted q := by
  induction ticks generalizing r with
  | nil => exact h
  | cons tracked ticks ih =>
    obtain ⟨hfirst, hq⟩ := List.forall_mem_cons.mp hq
    exact @ih (step f dropNth r (.watchdog tracked)) hq (checkStall_halted r.backend hfirst h)

/-- If the kernel never loses a request and both its repetitions, then after every tick no task among the first 256 is
left stopped, whatever happened before. Where answers are checked, or none is lost, no task is ever left stopped. The
scan never helps a task beyond the first 256. -/
theorem run_frees (f : Fates) (dropNth : Int) (procsOnly seccompMode : Bool) (tracer root : Int) (view : TraceeView)
    (steps : List LoopStep) :
    let first := start f dropNth procsOnly seccompMode tracer root view
    let last := Runs.run (step f dropNth) first steps
    (f.Recovers → ∀ tracked, ∀ q ∈ tracked.take 256,
      (Runs.run (step f dropNth) first (steps ++ [.watchdog tracked])).sending.kernel.Free q) ∧
    (dropNth < 0 → (∀ n, f.lost n = false) → last.AllFree) ∧
    (procsOnly = true → f.Recovers → Runs.Along (step f dropNth) (Unfiltered f) first steps → last.AllFree) ∧
    ∀ (ticks : List (List Int)) (q : Int), (∀ tracked ∈ ticks, q ∉ tracked.take 256) → last.sending.kernel.Halted q →
      (Runs.run (step f dropNth) first (steps ++ ticks.map .watchdog)).sending.kernel.Halted q := by
  intro first last
  have hrun : ∀ {P : LossyRun → LoopStep → Prop}, (∀ r e, P r e → (∀ n, f.lost n = false) ∨ r.Unfiltered f e) →
      Runs.Along (step f dropNth) P first steps → Answers f dropNth first.backend → last.AllFree := by
    intro P hP halong ha
    have hboth : last.AllFree ∧ Answers f dropNth last.backend := by
      refine Runs.run_invariant (I := fun r => r.AllFree ∧ Answers f dropNth r.backend) ?_ ⟨?_, ha⟩ halong
      · intro r e ⟨hfree, hr⟩ he
        refine ⟨step_allFree hfree hr (hP r e he), ?_⟩
        rw [Answers, step_mode]
        exact hr
      · exact start_allFree procsOnly seccompMode tracer root view ha
    exact hboth.1
  refine ⟨fun hf tracked q hq => ?_, fun hdrop hf => ?_, fun hprocs hf halong => ?_, fun ticks q hq h => ?_⟩
  · rw [Runs.run, List.foldl_append]
    exact checkStall_frees hf _ hq _
  · exact hrun (fun _ _ _ => .inl hf) (Runs.Along.of_all (P := fun _ _ => True) (fun _ _ => trivial) first steps)
      (.inr ⟨hdrop, hf⟩)
  · exact hrun (fun _ _ => .inr) halong (.inl ⟨hprocs, hf⟩)
  · rw [Runs.run, List.foldl_append]
    exact run_ticks_halted ticks hq h

/-- The answer to the root's SIGCHLD is lost, and the next tick resumes the root. -/
theorem run_frees_lostOnce :
    ¬(Runs.run (step (lostOnce 1 2) (-1)) (start (lostOnce 1 2) (-1) false false 1 20 {})
        [.report 20 {} {}]).sending.kernel.Free 20 ∧
      (Runs.run (step (lostOnce 1 2) (-1)) (start (lostOnce 1 2) (-1) false false 1 20 {})
        [.report 20 {} {}, .watchdog [20]]).sending.kernel.Free 20 := by
  have hrecovers : (lostOnce 1 2).Recovers := by
    intro n h0 h2
    simp only [lostOnce, beq_iff_eq] at h0 h2
    omega
  refine ⟨?_, (run_frees (lostOnce 1 2) (-1) false false 1 20 {} [.report 20 {} {}]).1 hrecovers [20] 20 (by simp)⟩
  intro hfree
  exact hfree (by decide +kernel)

end LossyRun
end Bdtrace
