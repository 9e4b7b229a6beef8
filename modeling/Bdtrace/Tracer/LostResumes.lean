import Bdtrace.Tracer.LossyKernel

/-! Which signals reach the tasks when the kernel loses restarts. -/
namespace Bdtrace

/-! ### Tasks -/

namespace Tracees
variable {k : Tracees} {f : Fates}

@[simp] theorem put_self (pid : Int) (t : Tracee) : (k.put pid t).task pid = t := Function.update_self ..

theorem put_of_ne {pid q : Int} (h : q ≠ pid) (t : Tracee) : (k.put pid t).task q = k.task q :=
  Function.update_of_ne h ..

/-- The signals of every task are accounted for. -/
def Kept (k : Tracees) : Prop := ∀ pid, (k.task pid).Kept

/-- A task that is held lacks just the signal `sig`. -/
def Lacks (k : Tracees) (pid sig : Int) : Prop :=
  (k.task pid).phase = .held → (k.task pid).chosen = (k.task pid).delivered ++ signalsOf sig

theorem Kept.put (h : k.Kept) {pid : Int} {t : Tracee} (ht : t.Kept) : (k.put pid t).Kept := by
  intro q
  by_cases hq : q = pid
  · subst hq
    rwa [put_self]
  · rw [put_of_ne hq]
    exact h q

/-- A change of one task, which is not held after it. -/
theorem Lacks.put {q sig : Int} (h : k.Lacks q sig) {pid : Int} {t : Tracee} (ht : t.phase ≠ .held) :
    (k.put pid t).Lacks q sig := by
  intro hheld
  by_cases hq : q = pid
  · subst hq
    rw [put_self] at hheld
    exact absurd hheld ht
  · rw [put_of_ne hq] at hheld ⊢
    exact h hheld

private theorem kept_delivered {t : Tracee} (h : t.Kept) : t.delivered <+: t.chosen := by
  rw [Tracee.Kept] at h
  split at h
  · rw [h]
  · rw [h]
  · rcases h with h | ⟨sig, h⟩
    · rw [h]
    · exact ⟨[sig], h.symm⟩
  · exact h
  · exact h

/-- A task that is held for the signal that was just chosen. -/
private theorem kept_held (signals : List Int) (sig : Int) :
    Tracee.Kept { phase := .held, chosen := signals ++ signalsOf sig, delivered := signals } := by
  rw [signalsOf]
  split
  · exact .inl (List.append_nil signals)
  · exact .inr ⟨sig, rfl⟩

private theorem move_kept (h : k.Kept) (m : Move) : (k.move m).Kept := by
  cases m with
  | stops pid status =>
    simp only [move]
    split
    · rename_i hrun
      have hpid := h pid
      rw [Tracee.Kept, hrun] at hpid
      exact h.put hpid
    · exact h
  | dies pid status =>
    simp only [move]
    split
    · have hpid := kept_delivered (h pid)
      exact h.put (by exact hpid)
    · exact h
  | «begins» pid =>
    simp only [move]
    split
    · exact h.put rfl
    · exact h

private theorem move_lacks {q sig : Int} (h : k.Lacks q sig) (m : Move) : (k.move m).Lacks q sig := by
  cases m with
  | stops pid status =>
    simp only [move]
    split
    · exact h.put (by simp)
    · exact h
  | dies pid status =>
    simp only [move]
    split
    · exact h.put (by simp)
    · exact h
  | «begins» pid =>
    simp only [move]
    split
    · exact h.put (by simp)
    · exact h

/-- The task stays stopped until a restart, unless it dies. -/
def Halted (k : Tracees) (pid : Int) : Prop :=
  (k.task pid).phase = .held ∨ ∃ status, (k.task pid).phase = .dying status

private theorem move_halted {pid : Int} (h : k.Halted pid) (m : Move) : (k.move m).Halted pid := by
  have hother : ∀ {q : Int} {t : Tracee}, q ≠ pid → (k.put q t).Halted pid := by
    intro q t hq
    rw [Halted, put_of_ne hq.symm]
    exact h
  cases m with
  | stops q status =>
    simp only [move]
    split
    · rename_i hrun
      apply hother
      rintro rfl
      rcases h with h | ⟨s, h⟩
      · rw [h] at hrun
        cases hrun
      · rw [h] at hrun
        cases hrun
    · exact h
  | dies q status =>
    simp only [move]
    split
    · by_cases hq : q = pid
      · subst hq
        exact .inr ⟨status, by rw [put_self]⟩
      · exact hother hq
    · exact h
  | «begins» q =>
    simp only [move]
    split
    · rename_i hgone
      apply hother
      rintro rfl
      rcases h with h | ⟨s, h⟩
      · rw [h] at hgone
        cases hgone
      · rw [h] at hgone
        cases hgone
    · exact h

/-- What every move keeps, the passing of time keeps. -/
theorem pass_invariant {P : Tracees → Prop} (hmove : ∀ k m, P k → P (k.move m))
    (hclock : ∀ k n, P k → P { k with clock := n }) (h : P k) : P (k.pass f) := by
  rw [pass]
  apply hclock
  generalize f.moves k.clock = ms
  induction ms generalizing k with
  | nil => exact h
  | cons m ms ih => exact ih (hmove k m h)

private theorem pass_kept (h : k.Kept) : (k.pass f).Kept :=
  pass_invariant (fun _ m h => move_kept h m) (fun _ _ h => h) h

private theorem pass_lacks {q sig : Int} (h : k.Lacks q sig) : (k.pass f).Lacks q sig :=
  pass_invariant (P := fun k => k.Lacks q sig) (fun _ m h => move_lacks h m) (fun _ _ h => h) h

theorem pass_halted {pid : Int} (h : k.Halted pid) : (k.pass f).Halted pid :=
  pass_invariant (P := fun k => k.Halted pid) (fun _ m h => move_halted h m) (fun _ _ h => h) h

/-- A restart with the signal that the task lacks. -/
private theorem restart_kept {pid sig : Int} (h : k.Kept) (hlacks : k.Lacks pid sig) (hhalted : k.Halted pid) :
    (k.restart pid sig).Kept := by
  rw [restart]
  rcases hhalted with hheld | ⟨status, hdying⟩
  · rw [hheld]
    apply h.put
    exact (hlacks hheld).symm
  · rw [hdying]
    exact h

private theorem restart_lacks {q s : Int} (h : k.Lacks q s) (pid sig : Int) : (k.restart pid sig).Lacks q s := by
  rw [restart]
  split
  · exact h.put (by simp)
  · exact h.put (by simp)
  · exact h

/-- The probe shows a stuck task exactly while it is held. -/
theorem probe_stuck (k : Tracees) (pid : Int) : (k.probe pid).stuck = decide ((k.task pid).phase = .held) := by
  rw [probe]
  cases (k.task pid).phase with
  | running => decide
  | stopped status => simp [Probe.stuck]
  | held => decide
  | dying status => simp [Probe.stuck]
  | gone => decide

end Tracees

/-! ### Requests -/

section Requests
variable {f : Fates}

private theorem send_lacks {k : Tracees} {q s : Int} (h : k.Lacks q s) (req : Request) :
    ((lossyKernel f).send req k).Lacks q s := by
  simp only [lossyKernel]
  split
  · exact Tracees.pass_lacks h
  · exact Tracees.restart_lacks (Tracees.pass_lacks h) req.pid req.sig

private theorem send_kept {k : Tracees} (req : Request) (h : k.Kept) (hlacks : k.Lacks req.pid req.sig)
    (hhalted : k.Halted req.pid) :
    ((lossyKernel f).send req k).Kept := by
  simp only [lossyKernel]
  split
  · exact Tracees.pass_kept h
  · exact Tracees.restart_kept (Tracees.pass_kept h) (Tracees.pass_lacks hlacks) (Tracees.pass_halted hhalted)

/-- Retries carry the signal that the task lacks, and are only made while it is held. -/
private theorem kickAttempts_kept (restart : Restart) (pid sig : Int) (n : Nat) {s : Sending Tracees}
    (h : s.kernel.Kept)
    (hlacks : s.kernel.Lacks pid sig) : (kickAttempts (lossyKernel f) restart pid sig n s).kernel.Kept := by
  induction n generalizing s with
  | zero => exact h
  | succ n ih =>
    have hpass := Tracees.pass_kept (f := f) h
    have hlacks' : (s.kernel.pass f).Lacks pid sig := Tracees.pass_lacks hlacks
    rw [kickAttempts]
    split
    · rename_i hstuck
      have hheld : ((s.kernel.pass f).task pid).phase = .held := by
        rw [lossyKernel] at hstuck
        rwa [Tracees.probe_stuck, decide_eq_true_eq] at hstuck
      apply ih
      · exact send_kept ⟨restart, pid, sig⟩ hpass hlacks' (.inl hheld)
      · exact send_lacks hlacks' ⟨restart, pid, sig⟩
    · exact hpass

private theorem kickAttempts_lacks (restart : Restart) (pid sig : Int) (n : Nat) {s : Sending Tracees} {q t : Int}
    (h : s.kernel.Lacks q t) : (kickAttempts (lossyKernel f) restart pid sig n s).kernel.Lacks q t := by
  induction n generalizing s with
  | zero => exact h
  | succ n ih =>
    have hpass : (s.kernel.pass f).Lacks q t := Tracees.pass_lacks h
    rw [kickAttempts]
    split
    · apply ih
      exact send_lacks hpass ⟨restart, pid, sig⟩
    · exact hpass

private theorem sendResume_kept (b : PtraceBackend) (dropNth pid sig : Int) {s : Sending Tracees} (h : s.kernel.Kept)
    (hlacks : s.kernel.Lacks pid sig) (hhalted : s.kernel.Halted pid) :
    (b.sendResume (lossyKernel f) dropNth pid sig s).kernel.Kept ∧
      (b.sendResume (lossyKernel f) dropNth pid sig s).kernel.Lacks pid sig := by
  rw [PtraceBackend.sendResume]
  generalize hs : (if dropsNext dropNth s.resumeCount then _ else _ : Sending Tracees) = answered
  have hanswered : answered.kernel.Kept ∧ answered.kernel.Lacks pid sig := by
    rw [← hs]
    split
    · exact ⟨h, hlacks⟩
    · exact ⟨send_kept ⟨_, pid, sig⟩ h hlacks hhalted, send_lacks hlacks _⟩
  split
  · exact ⟨kickAttempts_kept _ pid sig 3 hanswered.1 hanswered.2, kickAttempts_lacks _ pid sig 3 hanswered.2⟩
  · exact hanswered

/-- The answer to a stop carries the signal that was chosen, and so do its retries. -/
private theorem answerStop_kept (b : PtraceBackend) (dropNth : Int) (view : TraceeView) (pid : Int) {stop : Stop}
    {restart : Restart}
    {sig : Int} (hsig : (b.handleReport view pid (.stopped stop)).restart = some (restart, sig)) {s : Sending Tracees}
    (h : s.kernel.Kept) (hlacks : s.kernel.Lacks pid sig) (hhalted : s.kernel.Halted pid) :
    (b.answerStop (lossyKernel f) dropNth view pid (b.entry pid) s stop).kernel.Kept := by
  cases stop with
  | seccomp =>
    obtain ⟨-, rfl⟩ := Prod.mk.inj (Option.some.inj hsig)
    exact send_kept ⟨_, pid, 0⟩ h hlacks hhalted
  | signal n =>
    rw [b.handleReport_signal_restart] at hsig
    obtain ⟨-, rfl⟩ := Prod.mk.inj (Option.some.inj hsig)
    by_cases hfirst : n = sigstop ∧ (b.entry pid).traced = false
    · rw [if_pos hfirst] at hlacks
      obtain ⟨hkept, hlacks'⟩ := sendResume_kept (f := f) b dropNth pid 0 h hlacks hhalted
      rw [PtraceBackend.answerStop, if_pos hfirst]
      split
      · exact hkept
      · exact kickAttempts_kept _ pid 0 3 hkept hlacks'
    · rw [if_neg hfirst] at hlacks
      rw [PtraceBackend.answerStop, if_neg hfirst]
      exact (sendResume_kept b dropNth pid n h hlacks hhalted).1
  | _ =>
    obtain ⟨-, rfl⟩ := Prod.mk.inj (Option.some.inj hsig)
    exact (sendResume_kept b dropNth pid 0 h hlacks hhalted).1

/-- The recovery scan resumes with no signal, which is right for a task that lacks none. -/
private theorem checkStall_kept (b : PtraceBackend) {tracked : List Int} {s : Sending Tracees} (h : s.kernel.Kept)
    (hlacks : ∀ pid ∈ tracked.take 256, s.kernel.Lacks pid 0) : (checkStall f b tracked s).kernel.Kept := by
  rw [checkStall]
  generalize tracked.take 256 = scanned at hlacks
  induction scanned generalizing s with
  | nil => exact h
  | cons pid scanned ih =>
    have hpass := Tracees.pass_kept (f := f) h
    have hpassed : ∀ q ∈ pid :: scanned, (s.kernel.pass f).Lacks q 0 := fun q hq => Tracees.pass_lacks (hlacks q hq)
    rw [List.foldl_cons]
    simp only
    split
    · apply ih
      · exact kickAttempts_kept _ pid 0 3 hpass (hpassed pid List.mem_cons_self)
      · intro q hq
        exact kickAttempts_lacks _ pid 0 3 (hpassed q (List.mem_cons_of_mem pid hq))
    · apply ih
      · exact hpass
      · exact fun q hq => hpassed q (List.mem_cons_of_mem pid hq)

end Requests

/-! ### Runs -/

namespace LossyRun
variable {f : Fates} {dropNth : Int}

/-- A report, or a scan that finds no held task without its signal, keeps the signals. -/
private theorem step_signalsReach {r : LossyRun} {e : LoopStep} (h : r.SignalsReach) (he : r.NoneLacks e) :
    (r.step f dropNth e).SignalsReach := by
  cases e with
  | report pid view data =>
    have hpass : (r.sending.kernel.pass f).Kept := Tracees.pass_kept h
    simp only [step]
    split
    · rename_i status hphase
      have hpid := hpass pid
      rw [Tracee.Kept, hphase] at hpid
      obtain ⟨req, -, hrestart, -⟩ := answerStop_sent (K := lossyKernel f) r.backend dropNth view pid r.sending
        (decodeStop status data)
      have hchosen : r.backend.chosenSignal view data pid status = req.sig := by
        rw [PtraceBackend.chosenSignal, hrestart]
      simp only [PtraceBackend.iterate, decodeStatus_stopped status.2]
      apply answerStop_kept r.backend dropNth view pid hrestart
      · apply hpass.put
        rw [hpid]
        exact Tracees.kept_held _ _
      · intro _
        simp only [Tracees.put_self, hchosen, ← hpid]
      · exact .inl (by simp only [Tracees.put_self])
    · rename_i status hphase
      have hpid := Tracees.kept_delivered (hpass pid)
      have hgone :
          Tracees.Kept ((r.sending.kernel.pass f).put pid { (r.sending.kernel.pass f).task pid with phase := .gone }) :=
        hpass.put (by exact hpid)
      rw [PtraceBackend.iterate]
      split
      · exact hgone
      · rename_i stop hstop
        exact absurd hstop (decodeStatus_ended status.2 data stop)
      · exact hgone
    · exact hpass
  | watchdog tracked =>
    apply checkStall_kept
    · exact h
    · intro pid hpid hheld
      rw [signalsOf, if_pos rfl, List.append_nil]
      exact he pid hpid hheld

private theorem start_signalsReach (procsOnly seccompMode : Bool) (tracer root : Int) (view : TraceeView) :
    (start f dropNth procsOnly seccompMode tracer root view).SignalsReach := by
  have hnone : Tracees.Kept {} := fun _ => List.prefix_refl []
  have hroot : Tracee.Kept { phase := .held } := .inl rfl
  refine (sendResume_kept _ dropNth root 0 (hnone.put hroot) ?_ ?_).1
  · intro _
    rw [Tracees.put_self]
    rfl
  · exact .inl (by rw [Tracees.put_self])

/-- Whichever restarts the kernel loses, every signal that the tracer chose reaches its task once, in every state of a
run whose watchdog finds no held task without its signal. -/
theorem run_signalsReach (f : Fates) (dropNth : Int) (procsOnly seccompMode : Bool) (tracer root : Int)
    (view : TraceeView)
    (steps : List LoopStep)
    (h : Runs.Along (step f dropNth) NoneLacks (start f dropNth procsOnly seccompMode tracer root view) steps) :
    ∀ before, before <+: steps →
      (Runs.run (step f dropNth) (start f dropNth procsOnly seccompMode tracer root view) before).SignalsReach := by
  rintro before ⟨after, rfl⟩
  apply Runs.run_invariant
  · intro r e hr he
    exact step_signalsReach hr he
  · exact start_signalsReach procsOnly seccompMode tracer root view
  · exact h.initial

/-- The root stops with SIGCHLD, and the watchdog looks at it. -/
def childStop : List LoopStep := [.report 20 {} {}, .watchdog [20]]

/-- The stop comes before the request or probe number `stop`, and the request number `lost` has no effect. -/
def lostOnce (stop lost : Nat) : Fates where
  moves n := if n = stop then [.stops 20 ⟨signalStatus 17, rfl⟩] else []
  lost n := n == lost

/-- Without signals that wait, a lost restart is repeated by `resume`, and the task gets its signal. -/
theorem run_signalsReach_repeated :
    (Runs.run (step (lostOnce 2 3) (-1)) (start (lostOnce 2 3) (-1) true false 1 20 {})
      childStop).sending.kernel.task 20 =
        { phase := .running, chosen := [17], delivered := [17] } ∧
      (Runs.run (step (lostOnce 2 3) (-1)) (start (lostOnce 2 3) (-1) true false 1 20 {}) childStop).SignalsReach := by
  have hreach := run_signalsReach (lostOnce 2 3) (-1) true false 1 20 {} childStop (by decide +kernel)
  have hlast := hreach childStop List.prefix_rfl
  exact ⟨by decide +kernel, hlast⟩

/-- The watchdog resumes the task without the SIGCHLD that the lost restart had. -/
theorem watchdog_swallows :
    (Runs.run (step (lostOnce 1 2) (-1)) (start (lostOnce 1 2) (-1) false false 1 20 {})
      childStop).sending.kernel.task 20 =
        { phase := .running, chosen := [17], delivered := [] } ∧
      ¬(Runs.run (step (lostOnce 1 2) (-1)) (start (lostOnce 1 2) (-1) false false 1 20 {})
        childStop).SignalsReach := by
  have htask : (Runs.run (step (lostOnce 1 2) (-1)) (start (lostOnce 1 2) (-1) false false 1 20 {})
      childStop).sending.kernel.task 20 = { phase := .running, chosen := [17], delivered := [] } := by
    decide +kernel
  refine ⟨htask, ?_⟩
  intro h
  have hpid := h 20
  rw [htask] at hpid
  cases hpid

end LossyRun
end Bdtrace
