import Bdtrace.Tracer.TracerLoop

/-! Requests to stop the trace: what is forwarded, how the drain ends, and what is recorded until then. -/
namespace Bdtrace
namespace TracerLoop

section Phases
variable {l : TracerLoop} {t : Turn}

/-- What the parts of an iteration keep, the iteration keeps. -/
private theorem step_keeps {P : TracerLoop → Prop} (h : P l)
    (hfinish : ∀ e, e = .treeGone ∨ e = .fatalErrors → P (l.finish e))
    (hlook : P (l.lookAtSignals t)) (hdrain : ∀ l' : TracerLoop, P l' → P (l'.checkDrain t))
    (hawait : ∀ l' : TracerLoop, P l' → P (l'.await t.wait)) : P (l.step t) := by
  rw [step]
  split
  · exact h
  · split
    · exact hfinish _ (.inl rfl)
    · split
      · exact hfinish _ (.inr rfl)
      · dsimp only
        split
        · exact hlook
        · split
          · exact hdrain _ hlook
          · exact hawait _ (hdrain _ hlook)

private theorem step_of_ended (h : l.ending.isSome) : l.step t = l := by rw [step, if_pos h]

private theorem run_of_ended (h : l.ending.isSome) (ts : List Turn) : Runs.run step l ts = l := by
  induction ts with
  | nil => rfl
  | cons t ts ih =>
    rw [Runs.run, List.foldl_cons, step_of_ended h]
    exact ih

/-- When the watchdog reports a stall, and what it changes. -/
theorem reportStall_cases (l : TracerLoop) (nowUs : Int) (state : Int → Str) : l.reportStall nowUs state = l ∨
    ∃ a : LoopAct, a.reportsStall = true ∧ l.reportStall nowUs state = { l.log a with lastStallReportUs := nowUs } ∧
      10000000 ≤ nowUs - l.lastEventUs ∧ l.running = true ∧
      (l.lastStallReportUs ≠ 0 → 30000000 ≤ nowUs - l.lastStallReportUs) := by
  rw [reportStall]
  dsimp only
  split
  · exact .inl rfl
  · rename_i hgap
    split
    · exact .inl rfl
    · rename_i hrunning
      split
      · exact .inl rfl
      · rename_i hrepeat
        have hwhen : 10000000 ≤ nowUs - l.lastEventUs ∧ l.running = true ∧
            (l.lastStallReportUs ≠ 0 → 30000000 ≤ nowUs - l.lastStallReportUs) := by
          refine ⟨not_lt.mp hgap, by simpa using hrunning, fun hne => ?_⟩
          exact not_lt.mp fun hlt => hrepeat ⟨hne, hlt⟩
        split
        · exact .inr ⟨_, rfl, rfl, hwhen⟩
        · exact .inr ⟨_, rfl, rfl, hwhen⟩

private theorem reportStall_keeps {P : TracerLoop → Prop} (h : P l)
    (hreport : ∀ a nowUs, a.reportsStall = true → P { l.log a with lastStallReportUs := nowUs }) (nowUs : Int)
    (state : Int → Str) : P (l.reportStall nowUs state) := by
  obtain heq | ⟨a, ha, heq, -⟩ := l.reportStall_cases nowUs state
  · rw [heq]
    exact h
  · rw [heq]
    exact hreport a nowUs ha

private theorem forwards_log {a : LoopAct} (h : ∀ pid sig, a ≠ .forwarded pid sig) :
    (l.log a).forwards = l.forwards := by
  simp only [log, forwards, List.filterMap_append]
  cases a with
  | forwarded pid sig => exact absurd rfl (h pid sig)
  | _ => exact List.append_nil _

private theorem forwards_consume (r : Report) (nowUs : Int) : (l.consume r nowUs).forwards = l.forwards := by
  simp only [consume, forwards]
  split
  · rw [List.filterMap_append]
    exact List.append_nil _
  · rfl

/-! ### Requests to stop -/

/-- Before a request to stop nothing is forwarded and no deadline set; after it, exactly its signal was forwarded. -/
structure Stopping (root : Int) (l : TracerLoop) : Prop where
  rooted : l.root = root
  before : l.running = true → l.forwards = [] ∧ l.ending ≠ some .secondSignal ∧ l.ending ≠ some .drainTimedOut
  after : l.running = false → ∃ sig, l.forwards = [(root, sig)]

variable {root : Int}

theorem Stopping.log (h : l.Stopping root) {a : LoopAct} (ha : ∀ pid sig, a ≠ .forwarded pid sig) :
    (l.log a).Stopping root := by
  refine ⟨h.rooted, fun hr => ?_, fun hr => ?_⟩
  · rw [forwards_log ha]
    exact h.before hr
  · rw [forwards_log ha]
    exact h.after hr

theorem Stopping.finish (h : l.Stopping root) {e : Ending}
    (he : l.running = true → e ≠ .secondSignal ∧ e ≠ .drainTimedOut) :
    (l.finish e).Stopping root := by
  refine ⟨h.rooted, fun hr => ⟨(h.before hr).1, ?_⟩, h.after⟩
  simpa [TracerLoop.finish] using he hr

theorem Stopping.lookAtSignals (h : l.Stopping root) : (l.lookAtSignals t).Stopping root := by
  rw [TracerLoop.lookAtSignals]
  split
  · exact h
  · rename_i s _
    split
    · exact h.log fun _ _ heq => (by cases heq)
    · split
      · rename_i hr
        refine ⟨h.rooted, fun hr => (by cases hr), fun _ => ⟨s.num, ?_⟩⟩
        have hnone := (h.before hr).1
        simp only [forwards] at hnone
        simp only [forwards, TracerLoop.log, List.filterMap_append, hnone, h.rooted]
        rfl
      · rename_i hr
        exact (h.log fun _ _ heq => (by cases heq)).finish fun hr' => absurd hr' hr

theorem Stopping.checkDrain (h : l.Stopping root) : (l.checkDrain t).Stopping root := by
  rw [TracerLoop.checkDrain]
  split
  · rename_i hdrain
    refine (h.log fun _ _ heq => (by cases heq)).finish fun hr => ?_
    rw [TracerLoop.log, hdrain.1] at hr
    cases hr
  · exact h

theorem Stopping.await (h : l.Stopping root) (w : WaitResult) : (l.await w).Stopping root := by
  cases w with
  | report r nowUs =>
    refine ⟨h.rooted, fun hr => ?_, fun hr => ?_⟩
    · rw [TracerLoop.await, forwards_consume]
      exact h.before hr
    · rw [TracerLoop.await, forwards_consume]
      exact h.after hr
  | alarm nowUs state =>
    refine reportStall_keeps h (fun a _ ha => ?_) nowUs state
    have hlog := @Stopping.log l root h a fun _ _ hforward => by
      rw [hforward] at ha
      cases ha
    exact ⟨hlog.rooted, hlog.before, hlog.after⟩
  | interrupted => exact h
  | noChild => exact h.finish fun _ => (by simp)
  | failed => exact h.finish fun _ => (by simp)

theorem Stopping.step (h : l.Stopping root) (t : Turn) : (l.step t).Stopping root := by
  apply step_keeps h
  · rintro e (rfl | rfl)
    · exact h.finish fun _ => (by simp)
    · exact h.finish fun _ => (by simp)
  · exact h.lookAtSignals
  · exact fun _ h => h.checkDrain
  · exact fun _ h => h.await t.wait

/-! ### The drain -/

/-- Once a deadline is set it stays, and the loop keeps draining. -/
def Draining (deadline : Int) (l : TracerLoop) : Prop := l.running = false ∧ l.drainDeadlineUs = deadline

theorem Draining.lookAtSignals {deadline : Int} (h : l.Draining deadline) : (l.lookAtSignals t).Draining deadline := by
  rw [TracerLoop.lookAtSignals]
  split
  · exact h
  · split
    · exact h
    · rw [if_neg (by simp [h.1])]
      exact h

theorem Draining.step {deadline : Int} (h : l.Draining deadline) (t : Turn) : (l.step t).Draining deadline := by
  apply step_keeps h
  · exact fun _ _ => h
  · exact h.lookAtSignals
  · intro l h
    rw [checkDrain]
    split
    · exact h
    · exact h
  · intro l h
    cases t.wait with
    | alarm nowUs state =>
      exact reportStall_keeps h (fun _ _ _ => h) nowUs state
    | _ => exact h

/-- An iteration that starts its wait after the deadline does not come to it. -/
theorem Draining.ends {deadline : Int} (h : l.Draining deadline) (hne : deadline ≠ 0) (hlate : deadline < t.drainUs) :
    (l.step t).ending.isSome := by
  rw [TracerLoop.step]
  split
  · assumption
  · split
    · rfl
    · split
      · rfl
      · dsimp only
        split
        · assumption
        · have hlook : (l.lookAtSignals t).Draining deadline := h.lookAtSignals
          have hdrain : ((l.lookAtSignals t).checkDrain t).ending.isSome := by
            rw [checkDrain, if_pos ⟨hlook.1, by rw [hlook.2]; exact hne, by rw [hlook.2]; exact hlate⟩]
            rfl
          rw [if_pos hdrain]
          exact hdrain

private theorem step_stops (h : l.running = true) (hstop : (l.step t).running = false) :
    (l.step t).Draining (t.stopUs + 30000000) := by
  have hkeeps : (l.step t).running = true ∨ (l.step t).Draining (t.stopUs + 30000000) := by
    apply step_keeps (P := fun l' => l'.running = true ∨ l'.Draining (t.stopUs + 30000000))
    · exact .inl h
    · exact fun _ _ => .inl h
    · rw [lookAtSignals]
      split
      · exact .inl h
      · split
        · exact .inl h
        · exact .inr ⟨rfl, rfl⟩
    · intro l' hl'
      rw [checkDrain]
      split
      · exact hl'
      · exact hl'
    · intro l' hl'
      cases t.wait with
      | alarm nowUs state =>
        exact reportStall_keeps (P := fun l' => l'.running = true ∨ l'.Draining (t.stopUs + 30000000)) hl'
          (fun _ _ _ => hl') nowUs state
      | _ => exact hl'
  rcases hkeeps with hrunning | hdraining
  · rw [hstop] at hrunning
    cases hrunning
  · exact hdraining

private theorem step_running (h : l.running = true) (hsignals : ∀ s ∈ t.signals.getLast?, l.FromTracee s) :
    (l.step t).running = true := by
  apply step_keeps (P := fun l' => l'.running = true) h
  · exact fun _ _ => h
  · rw [lookAtSignals]
    split
    · exact h
    · rename_i s hs
      rw [if_pos (hsignals s hs)]
      exact h
  · intro l' hl'
    rw [checkDrain]
    split
    · exact hl'
    · exact hl'
  · intro l' hl'
    cases t.wait with
    | alarm nowUs state =>
      exact reportStall_keeps (P := fun l' => l'.running = true) hl' (fun _ _ _ => hl') nowUs state
    | _ => exact hl'

/-! ### The reports -/

/-- An iteration handles its report, or has none, or is the last. -/
private theorem step_recorded (l : TracerLoop) (t : Turn) :
    (∃ r, t.report = some r ∧ (l.step t).recorded = l.recorded.step r) ∨
      (l.step t).recorded = l.recorded ∧ (t.report = none ∨ (l.step t).ending.isSome) := by
  have hlook : (l.lookAtSignals t).recorded = l.recorded := by
    rw [lookAtSignals]
    split
    · rfl
    · split
      · rfl
      · split <;> rfl
  have hdrain : ((l.lookAtSignals t).checkDrain t).recorded = l.recorded := by
    rw [checkDrain]
    split
    · exact hlook
    · exact hlook
  rw [step]
  split
  · exact .inr ⟨rfl, .inr ‹_›⟩
  · split
    · exact .inr ⟨rfl, .inr rfl⟩
    · split
      · exact .inr ⟨rfl, .inr rfl⟩
      · dsimp only
        split
        · exact .inr ⟨hlook, .inr ‹_›⟩
        · split
          · exact .inr ⟨hdrain, .inr ‹_›⟩
          · generalize (l.lookAtSignals t).checkDrain t = l' at hdrain
            rw [Turn.report]
            cases t.wait with
            | report r nowUs =>
              refine .inl ⟨r, rfl, ?_⟩
              rw [← hdrain]
              rfl
            | alarm nowUs state =>
              refine .inr ⟨?_, .inl rfl⟩
              exact reportStall_keeps (P := fun l' => l'.recorded = l.recorded) hdrain (fun _ _ _ => hdrain) nowUs state
            | interrupted => exact .inr ⟨hdrain, .inl rfl⟩
            | noChild => exact .inr ⟨hdrain, .inl rfl⟩
            | failed => exact .inr ⟨hdrain, .inl rfl⟩

private theorem run_recorded (l : TracerLoop) (turns : List Turn) :
    ∃ rs, (Runs.run step l turns).recorded = l.recorded.run rs ∧ rs <+: turns.filterMap Turn.report ∧
      ((Runs.run step l turns).ending = none → rs = turns.filterMap Turn.report) := by
  induction turns generalizing l with
  | nil => exact ⟨[], rfl, List.nil_prefix, fun _ => rfl⟩
  | cons t turns ih =>
    rw [Runs.run, List.foldl_cons]
    obtain ⟨r, hr, hstep⟩ | ⟨hstep, hr | hended⟩ := step_recorded l t
    · obtain ⟨rs, hrun, hpre, hall⟩ := ih (l.step t)
      rw [List.filterMap_cons_some hr]
      refine ⟨r :: rs, ?_, List.prefix_cons_inj r |>.mpr hpre, fun hnone => by rw [hall hnone]⟩
      rw [hstep] at hrun
      exact hrun
    · obtain ⟨rs, hrun, hpre, hall⟩ := ih (l.step t)
      rw [List.filterMap_cons_none hr]
      rw [hstep] at hrun
      exact ⟨rs, hrun, hpre, hall⟩
    · have hstay := run_of_ended hended turns
      rw [Runs.run] at hstay
      rw [hstay]
      refine ⟨[], hstep, List.nil_prefix, fun hnone => ?_⟩
      rw [hnone] at hended
      cases hended

end Phases

/-- Whatever arrives in whatever order: signals from tracees never stop the trace; the first other signal is forwarded
to the command once and the drain after it is over by its deadline; until the loop ends it handles every report as a
loop without signals does. -/
theorem stop_requests (procsOnly seccompMode : Bool) (tracer root : Int) (view : TraceeView) (startUs : Int)
    (turns : List Turn) :
    let first := start procsOnly seccompMode tracer root view startUs
    let l := Runs.run step first turns
    (l.running = true → l.forwards = [] ∧ l.ending ≠ some .secondSignal ∧ l.ending ≠ some .drainTimedOut) ∧
    (l.running = false → ∃ sig, l.forwards = [(root, sig)]) ∧
    (Runs.Along step (fun l t => ∀ s ∈ t.signals.getLast?, l.FromTracee s) first turns → l.running = true) ∧
    (∀ t later u, l.running = true → (l.step t).running = false → 0 ≤ t.stopUs → t.stopUs + 30000000 < u.drainUs →
      (Runs.run step first (turns ++ t :: later ++ [u])).ending.isSome) ∧
    ∃ rs, l.recorded = first.recorded.run rs ∧ rs <+: turns.filterMap Turn.report ∧
      (l.ending = none → rs = turns.filterMap Turn.report) := by
  intro first l
  have hfirst : first.Stopping root :=
    ⟨rfl, fun _ => ⟨rfl, by simp [first, start], by simp [first, start]⟩, fun h => by cases h⟩
  have hstopping : l.Stopping root :=
    Runs.run_invariant (fun _ t h _ => h.step t) hfirst
      (Runs.Along.of_all (P := fun _ _ => True) (fun _ _ => trivial) first turns)
  refine ⟨hstopping.before, hstopping.after, fun halong => ?_, fun t later u hrunning hstop hclock hlate => ?_, ?_⟩
  · exact Runs.run_invariant (I := fun l => l.running = true) (fun _ _ h hs => step_running h hs) rfl halong
  · have hdraining : (Runs.run step (l.step t) later).Draining (t.stopUs + 30000000) :=
      Runs.run_invariant (fun _ t h _ => h.step t) (step_stops hrunning hstop)
        (Runs.Along.of_all (P := fun _ _ => True) (fun _ _ => trivial) _ later)
    have hlast : Runs.run step first (turns ++ t :: later ++ [u]) = (Runs.run step (l.step t) later).step u := by
      simp only [Runs.run, List.foldl_append, List.foldl_cons, List.foldl_nil]
      rfl
    rw [hlast]
    exact hdraining.ends (by omega) hlate
  · exact run_recorded first turns

/-- A build step sends SIGINT to its process group, and SIGTERM comes from outside. -/
private def groupKill : Turn := { signals := [⟨2, 20, 0⟩], wait := .interrupted }

private def terminate : Turn := { signals := [⟨15, 0, 0⟩], stopUs := 1000, wait := .interrupted }

theorem stop_requests_terminate :
    (Runs.run step (start false true 1 20 {} 0) [groupKill]).running = true ∧
      (Runs.run step (start false true 1 20 {} 0)
        ([groupKill] ++ terminate :: [] ++ [{ drainUs := 30001001, wait := .interrupted }])).ending.isSome := by
  have h := stop_requests false true 1 20 {} 0 [groupKill]
  have hrunning := h.2.2.1 ⟨fun s hs => by
    obtain rfl := Option.some.inj hs
    exact ⟨by decide, by decide, Finset.mem_singleton_self 20⟩, trivial⟩
  exact ⟨hrunning, h.2.2.2.1 terminate [] { drainUs := 30001001, wait := .interrupted } hrunning (by decide) (by decide)
    (by decide)⟩

end TracerLoop
end Bdtrace
