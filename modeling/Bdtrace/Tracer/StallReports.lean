import Bdtrace.Tracer.StopRequests
import Mathlib.Algebra.Order.Ring.Int
import Mathlib.Data.List.Chain

/-! How often the watchdog reports a stall, and when it says that the stall is over. -/
namespace Bdtrace

def LoopAct.clearsStall : LoopAct → Bool
  | .stallCleared _ => true
  | _ => false

def WaitResult.clock : WaitResult → Option Int
  | .report _ nowUs | .alarm nowUs _ => some nowUs
  | _ => none

namespace TracerLoop

/-- The lines about stalls, in their order. -/
def stallLines (l : TracerLoop) : List LoopAct := l.acts.filter fun a => a.reportsStall || a.clearsStall

def stallReports (l : TracerLoop) : Nat := l.stallLines.countP (·.reportsStall)

/-- The times of the turns in which a stall is reported. -/
def reportTimes : TracerLoop → List Turn → List Int
  | _, [] => []
  | l, t :: ts =>
    (if (l.step t).stallReports = l.stallReports then [] else t.wait.clock.toList) ++ reportTimes (l.step t) ts

/-- The reports of a stall that lasts since `eventUs`: the first after ten seconds, and each of the others thirty
seconds after the one before. -/
structure Spaced (eventUs : Int) (times : List Int) : Prop where
  first : ∀ a ∈ times.head?, eventUs + 10000000 ≤ a
  apart : times.IsChain fun a b => a + 30000000 ≤ b

/-- The clock does not run backwards. -/
def OnTime (l : TracerLoop) (t : Turn) : Prop :=
  ∀ nowUs ∈ t.wait.clock, 0 < nowUs ∧ l.lastEventUs ≤ nowUs ∧ l.lastStallReportUs ≤ nowUs

instance (l : TracerLoop) (t : Turn) : Decidable (l.OnTime t) := inferInstanceAs (Decidable (∀ _ ∈ _, _))

section Steps
variable {l : TracerLoop} {t : Turn}

/-- What counts for a stall, unchanged. -/
structure SameStall (l l' : TracerLoop) : Prop where
  lines : l'.stallLines = l.stallLines
  event : l'.lastEventUs = l.lastEventUs
  report : l'.lastStallReportUs = l.lastStallReportUs
  running : l'.running = true → l.running = true

private theorem stallLines_log (l : TracerLoop) (a : LoopAct) :
    (l.log a).stallLines = l.stallLines ++ if a.reportsStall || a.clearsStall then [a] else [] := by
  simp only [stallLines, log, List.filter_append, List.filter_cons, List.filter_nil]

private theorem sameStall_log {a : LoopAct} (hreport : a.reportsStall = false) (hclear : a.clearsStall = false) :
    l.SameStall (l.log a) := by
  refine ⟨?_, rfl, rfl, id⟩
  rw [stallLines_log, hreport, hclear]
  exact List.append_nil _

private theorem sameStall_finish {l l' : TracerLoop} (h : l.SameStall l') (e : Ending) : l.SameStall (l'.finish e) :=
  ⟨h.lines, h.event, h.report, h.running⟩

private theorem sameStall_lookAtSignals : l.SameStall (l.lookAtSignals t) := by
  rw [lookAtSignals]
  split
  · exact ⟨rfl, rfl, rfl, id⟩
  · split
    · exact sameStall_log rfl rfl
    · split
      · rename_i s _ _ hrunning
        have hlog := @sameStall_log l (.forwarded l.root s.num) rfl rfl
        exact ⟨hlog.lines, hlog.event, hlog.report, fun _ => hrunning⟩
      · exact sameStall_finish (sameStall_log rfl rfl) _

private theorem sameStall_checkDrain {l l' : TracerLoop} (h : l.SameStall l') : l.SameStall (l'.checkDrain t) := by
  rw [checkDrain]
  split
  · have hlog := @sameStall_log l' (.timedOut l'.tracked.card) rfl rfl
    apply sameStall_finish
    exact ⟨hlog.lines.trans h.lines, hlog.event.trans h.event, hlog.report.trans h.report, h.running⟩
  · exact h

/-- What one iteration does to the stall lines and the two times. -/
inductive StallStep (l : TracerLoop) (t : Turn) (l' : TracerLoop) : Prop
  | quiet (same : l.SameStall l')
  | reported (a : LoopAct) (nowUs : Int) (state : Int → Str) (wait : t.wait = .alarm nowUs state)
    (isReport : a.reportsStall = true)
      (lines : l'.stallLines = l.stallLines ++ [a]) (event : l'.lastEventUs = l.lastEventUs)
      (report : l'.lastStallReportUs = nowUs) (gap : 10000000 ≤ nowUs - l.lastEventUs) (running : l.running = true)
      (again : l.lastStallReportUs ≠ 0 → 30000000 ≤ nowUs - l.lastStallReportUs)
  | consumed (r : Report) (nowUs : Int) (wait : t.wait = .report r nowUs)
      (lines : l'.stallLines = l.stallLines ++ if l.lastStallReportUs ≠ 0 then [.stallCleared r.pid] else [])
      (event : l'.lastEventUs = nowUs) (report : l'.lastStallReportUs = 0)

private theorem stallStep_await {l l' : TracerLoop} (h : l.SameStall l') : l.StallStep t (l'.await t.wait) := by
  cases hwait : t.wait with
  | report r nowUs =>
    refine .consumed r nowUs hwait ?_ rfl rfl
    rw [← h.lines, ← h.report]
    simp only [await, consume, stallLines]
    split
    · rw [List.filter_append]
      rfl
    · exact (List.append_nil _).symm
  | alarm nowUs state =>
    rw [await]
    obtain heq | ⟨a, ha, heq, hgap, hrunning, hagain⟩ := l'.reportStall_cases nowUs state
    · rw [heq]
      exact .quiet h
    · rw [heq]
      rw [h.event] at hgap
      rw [h.report] at hagain
      refine .reported a nowUs state hwait ha ?_ h.event rfl hgap (h.running hrunning) hagain
      have hlines := stallLines_log l' a
      rw [ha, Bool.true_or, if_pos rfl, h.lines] at hlines
      exact hlines
  | interrupted => exact .quiet h
  | noChild => exact .quiet (sameStall_finish h _)
  | failed => exact .quiet (sameStall_finish h _)

private theorem stallStep (l : TracerLoop) (t : Turn) : l.StallStep t (l.step t) := by
  have hsame : l.SameStall l := ⟨rfl, rfl, rfl, id⟩
  rw [step]
  split
  · exact .quiet hsame
  · split
    · exact .quiet (sameStall_finish hsame _)
    · split
      · exact .quiet (sameStall_finish hsame _)
      · dsimp only
        split
        · exact .quiet sameStall_lookAtSignals
        · split
          · exact .quiet (sameStall_checkDrain sameStall_lookAtSignals)
          · exact stallStep_await (sameStall_checkDrain sameStall_lookAtSignals)

private theorem stallReports_reported {l l' : TracerLoop} {a : LoopAct} (hlines : l'.stallLines = l.stallLines ++ [a])
    (ha : a.reportsStall = true) : l'.stallReports = l.stallReports + 1 := by
  rw [stallReports, hlines, List.countP_append, List.countP_singleton, if_pos ha]
  rfl

/-! ### Whole runs -/

/-- A line that clears a stall comes only after a report of it. -/
structure Alternates (lines : List LoopAct) : Prop where
  chain : lines.IsChain fun a b => a.reportsStall = true ∨ b.reportsStall = true
  first : ∀ a ∈ lines.head?, a.reportsStall = true

private theorem Alternates.concat {lines : List LoopAct} (h : Alternates lines) {b : LoopAct}
    (hb : b.reportsStall = true ∨ ∃ a ∈ lines.getLast?, a.reportsStall = true) : Alternates (lines ++ [b]) := by
  constructor
  · refine List.isChain_append.mpr ⟨h.chain, .singleton b, fun a ha c hc => ?_⟩
    obtain rfl : b = c := by simpa using hc
    rcases hb with hb | ⟨a', ha', hreport⟩
    · exact .inr hb
    · obtain rfl := Option.mem_unique ha ha'
      exact .inl hreport
  · intro a ha
    cases lines with
    | nil =>
      obtain rfl : b = a := by simpa using ha
      rcases hb with hb | ⟨a', ha', -⟩
      · exact hb
      · cases ha'
    | cons c lines => exact h.first a (by simpa using ha)

/-- Stall reports and their ends alternate, the last report is cleared unless its time is kept, and there is one in ten
seconds at most. -/
structure Paced (startUs : Int) (l : TracerLoop) : Prop where
  alternates : Alternates l.stallLines
  pending : l.lastStallReportUs ≠ 0 ↔ ∃ a ∈ l.stallLines.getLast?, a.reportsStall = true
  started : 0 ≤ startUs ∧ startUs ≤ l.lastEventUs
  rate : 10000000 * (l.stallReports : Int) ≤ max l.lastEventUs l.lastStallReportUs - startUs

theorem Paced.step {startUs : Int} (h : l.Paced startUs) (htime : l.OnTime t) : (l.step t).Paced startUs := by
  obtain ⟨halternates, hpending, hstarted, hrate⟩ := h
  cases l.stallStep t with
  | quiet same =>
    refine ⟨?_, ?_, ?_, ?_⟩
    · rw [same.lines]
      exact halternates
    · rw [same.lines, same.report]
      exact hpending
    · rw [same.event]
      exact hstarted
    · rw [stallReports, same.lines, same.event, same.report]
      exact hrate
  | reported a nowUs state wait isReport lines event report gap running again =>
    obtain ⟨hpositive, hevent, hreport⟩ := htime nowUs (by rw [wait]; rfl)
    refine ⟨?_, ?_, ?_, ?_⟩
    · rw [lines]
      exact halternates.concat (.inl isReport)
    · rw [lines, report]
      refine iff_of_true (by omega) ⟨a, ?_, isReport⟩
      simp
    · rw [event]
      exact hstarted
    · rw [stallReports_reported lines isReport, event, report]
      push_cast
      by_cases hzero : l.lastStallReportUs = 0
      · rw [hzero] at hrate
        omega
      · have := again hzero
        omega
  | consumed r nowUs wait lines event report =>
    obtain ⟨hpositive, hevent, hreport⟩ := htime nowUs (by rw [wait]; rfl)
    have hreports : (l.step t).stallReports = l.stallReports := by
      rw [stallReports, lines, List.countP_append]
      split <;> rfl
    refine ⟨?_, ?_, ?_, ?_⟩
    · rw [lines]
      split
      · rename_i hne
        exact halternates.concat (.inr (hpending.mp hne))
      · rw [List.append_nil]
        exact halternates
    · rw [lines, report]
      refine iff_of_false (by simp) ?_
      split
      · rintro ⟨a, ha, hreport⟩
        obtain rfl : .stallCleared r.pid = a := by simpa using ha
        cases hreport
      · rename_i hzero
        rw [List.append_nil]
        exact fun hlast => hzero (hpending.mpr hlast)
    · rw [event]
      exact ⟨hstarted.1, by omega⟩
    · rw [hreports, event, report]
      omega

/-- A quiet spell that has been reported before is reported again after thirty seconds. -/
private theorem spaced_again (quiet : List Turn) {l : TracerLoop}
    (hquiet : Runs.Along TracerLoop.step (fun l t => l.OnTime t ∧ t.report = none) l quiet) :
    Spaced l.lastEventUs (l.reportTimes quiet) ∧
      (l.lastStallReportUs ≠ 0 → ∀ a ∈ (l.reportTimes quiet).head?, l.lastStallReportUs + 30000000 ≤ a) ∧
      (Runs.run TracerLoop.step l quiet).stallReports = l.stallReports + (l.reportTimes quiet).length := by
  induction quiet generalizing l with
  | nil => exact ⟨⟨fun a ha => (by cases ha), .nil⟩, fun _ a ha => (by cases ha), rfl⟩
  | cons t quiet ih =>
    obtain ⟨⟨htime, hnone⟩, hrest⟩ := hquiet
    obtain ⟨hspaced, hagain, hcount⟩ := ih hrest
    have hrun : Runs.run TracerLoop.step l (t :: quiet) = Runs.run TracerLoop.step (l.step t) quiet := rfl
    cases l.stallStep t with
    | quiet same =>
      have hreports : (l.step t).stallReports = l.stallReports := by rw [stallReports, same.lines, ← stallReports]
      have htimes : l.reportTimes (t :: quiet) = (l.step t).reportTimes quiet := by
        rw [reportTimes, if_pos hreports, List.nil_append]
      rw [htimes, hrun, hcount, hreports, ← same.event, ← same.report]
      exact ⟨hspaced, hagain, rfl⟩
    | reported a nowUs state wait isReport lines event report gap running again =>
      have hpositive := (htime nowUs (by rw [wait]; rfl)).1
      have hreports := stallReports_reported lines isReport
      have htimes : l.reportTimes (t :: quiet) = nowUs :: (l.step t).reportTimes quiet := by
        rw [reportTimes, if_neg (by omega), wait]
        rfl
      rw [htimes, hrun, hcount, hreports, List.length_cons]
      refine ⟨⟨fun b hb => ?_, ?_⟩, fun hne b hb => ?_, by omega⟩
      · obtain rfl : nowUs = b := Option.some.inj hb
        omega
      · refine List.isChain_cons.mpr ⟨fun b hb => ?_, hspaced.apart⟩
        have hnext := hagain (by rw [report]; omega) b hb
        rwa [report] at hnext
      · obtain rfl : nowUs = b := Option.some.inj hb
        have hlast := again hne
        omega
    | consumed r nowUs wait lines event report =>
      rw [Turn.report, wait] at hnone
      cases hnone

/-- While the loop drains, it reports no stall. -/
private theorem step_silent {n : Nat} (h : l.running = false ∧ l.stallReports = n) :
    (l.step t).running = false ∧ (l.step t).stallReports = n := by
  have hdraining : l.Draining l.drainDeadlineUs := ⟨h.1, rfl⟩
  refine ⟨(hdraining.step t).1, ?_⟩
  cases l.stallStep t with
  | quiet same =>
    rw [stallReports, same.lines]
    exact h.2
  | reported a nowUs state wait isReport lines event report gap running again =>
    rw [h.1] at running
    cases running
  | consumed r nowUs wait lines event report =>
    rw [← h.2, stallReports, lines, List.countP_append]
    split <;> rfl

end Steps

/-- With a clock that does not run backwards: no stall is cleared that was not reported, and at the next event every
reported one is; there is one report in ten seconds at most; during one stall the first comes after ten seconds and each
of the others thirty seconds after the one before; and none comes once the loop drains. -/
theorem stall_reports (procsOnly seccompMode : Bool) (tracer root : Int) (view : TraceeView) (startUs : Int)
    (hclock : 0 ≤ startUs) (turns : List Turn)
    (htime : Runs.Along step OnTime (start procsOnly seccompMode tracer root view startUs) turns) :
    let l := Runs.run step (start procsOnly seccompMode tracer root view startUs) turns
    Alternates l.stallLines ∧
    (l.lastStallReportUs = 0 → ∀ a ∈ l.stallLines.getLast?, a.reportsStall = false) ∧
    10000000 * (l.stallReports : Int) ≤ max l.lastEventUs l.lastStallReportUs - startUs ∧
    (∀ quiet, l.lastStallReportUs = 0 → Runs.Along step (fun l t => l.OnTime t ∧ t.report = none) l quiet →
      Spaced l.lastEventUs (l.reportTimes quiet) ∧
        (Runs.run step l quiet).stallReports = l.stallReports + (l.reportTimes quiet).length) ∧
    (∀ later, l.running = false → (Runs.run step l later).stallReports = l.stallReports) := by
  intro l
  have hfirst : (start procsOnly seccompMode tracer root view startUs).Paced startUs := by
    refine ⟨⟨.nil, fun a ha => (by cases ha)⟩, iff_of_false (fun h => h rfl) ?_, ⟨hclock, le_rfl⟩, ?_⟩
    · rintro ⟨a, ha, -⟩
      cases ha
    · simp only [start, stallReports, stallLines, List.filter_nil, List.countP_nil]
      omega
  have hpaced : l.Paced startUs := Runs.run_invariant (fun _ _ h ht => h.step ht) hfirst htime
  refine ⟨hpaced.alternates, fun hzero a ha => ?_, hpaced.rate, fun quiet hzero hquiet => ?_, fun later hstop => ?_⟩
  · by_contra hreport
    exact hpaced.pending.mpr ⟨a, ha, by simpa using hreport⟩ hzero
  · obtain ⟨hspaced, -, hcount⟩ := spaced_again quiet hquiet
    exact ⟨hspaced, hcount⟩
  · have hall : Runs.Along step (fun _ _ => True) l later := Runs.Along.of_all (fun _ _ => trivial) l later
    have hsilent := Runs.run_invariant (I := fun l' => l'.running = false ∧ l'.stallReports = l.stallReports)
      (fun _ _ h _ => step_silent h) ⟨hstop, rfl⟩ hall
    exact hsilent.2

/-- The root stops with SIGCHLD after two ticks of the watchdog. -/
private def quietSpell : List Turn :=
  [{ wait := .alarm 10500000 fun _ => [] }, { wait := .alarm 20000000 fun _ => [] },
    { wait := .report ⟨{}, 20, .stopped (.signal 17)⟩ 25000000 }]

theorem stall_reports_quietSpell :
    (Runs.run step (start false false 1 20 {} 0) quietSpell).stallLines = [.stalled 10 1, .stallCleared 20] ∧
      Alternates (Runs.run step (start false false 1 20 {} 0) quietSpell).stallLines := by
  have htime : Runs.Along step OnTime (start false false 1 20 {} 0) quietSpell :=
    ⟨by decide +kernel, by decide +kernel, by decide +kernel, trivial⟩
  exact ⟨by decide +kernel, (stall_reports false false 1 20 {} 0 le_rfl quietSpell htime).1⟩

end TracerLoop
end Bdtrace
