import Bdtrace.Session.AppendedRuns
import Bdtrace.Tracer.ParentLinks

/-! Interleavings of fork events with the reports of the child: what the finished trace holds of each
task. -/
namespace Bdtrace

theorem SessionCall.AccessOf.pid_eq {pid : Int} {c : SessionCall} (h : c.AccessOf pid) : c.pid = pid := by
  cases c with
  | fileAccess rec => exact h
  | failedAccess rec => exact h
  | _ => exact h.elim

/-- The tables hold the access of a call under the id `x`; a failed access is identified by its key. -/
def Tables.Keeps (t : Tables) (x : Int) : SessionCall → Prop
  | .fileAccess rec => ∃ fa : FileAccessRecord, fa.stored ∈ t.accesses ∧ fa.pid = x ∧ fa.filename = rec.filename ∧
      fa.mode = rec.mode
  | .failedAccess rec => ∃ failed : FailedAccessRecord, failed.stored ∈ t.failures ∧ failed.pid = x ∧
      failed.filename = rec.filename ∧ TraceSession.failedKey failed = TraceSession.failedKey rec
  | _ => True

namespace Family
variable (F : Family)

/-- The exec and the exit of a task are reported after its fork event, and so are its accesses unless its
pid was not in use before. -/
def Timely (s : Tracing) : TaskEvent → Prop
  | .report t status view =>
    (status.ends = true ∨ status = .stopped .exec → t ∈ s.world.reported) ∧
      (status = .stopped .syscall → (handleSyscallStop view (F.pid t) (s.backend.entry (F.pid t))).2 ≠ [] →
        F.Current s.world t)
  | _ => True

instance (s : Tracing) : (e : TaskEvent) → Decidable (F.Timely s e)
  | .report t status view => inferInstanceAs (Decidable
      ((status.ends = true ∨ status = .stopped .exec → t ∈ s.world.reported) ∧
        (status = .stopped .syscall → (handleSyscallStop view (F.pid t) (s.backend.entry (F.pid t))).2 ≠ [] →
          F.Current s.world t)))
  | .spawn _ | .forkEvent .. | .vanish _ => inferInstanceAs (Decidable True)

/-- The events in whose order nothing is lost. -/
abbrev Orderly (s : Tracing) (e : TaskEvent) : Prop := F.Translates s.world e ∧ F.Timely s e

variable {F}

/-- The task that the calls of an event are about. -/
def owner : TaskEvent → Nat
  | .spawn c => c
  | .forkEvent _ c .. => c
  | .report t .. => t
  | .vanish t => t

private theorem Timely.forksFirst {s : Tracing} {e : TaskEvent} (h : F.Timely s e) : s.world.ForksFirst e := by
  cases e with
  | report t status view => exact fun hexec => h.1 (.inr hexec)
  | _ => trivial

/-- Each call is about the process `i`. -/
def About (i : Incarnation) (b : Book) (c : SessionCall) : Prop := (b.note c).current c.pid = i

private theorem about_quiet {b : Book} {i : Incarnation} {p : Int} (hb : b.current p = i) {cs : List SessionCall}
    (h : ∀ c ∈ cs, c.quiet = true ∧ c.pid = p) : Book.Along (About i) b cs := by
  induction cs with
  | nil => trivial
  | cons c cs ih =>
    obtain ⟨hquiet, rfl⟩ := h c List.mem_cons_self
    have hn := Book.note_quiet hquiet b
    refine ⟨?_, hn.symm ▸ ih fun d hd => h d (List.mem_cons_of_mem _ hd)⟩
    rw [About, hn]
    exact hb

namespace Attributed
variable {s : Tracing} (h : F.Attributed s)
include h

private theorem about_report {t : Nat} {status : WaitStatus} {view : TraceeView}
    (hp : F.Possible s.world (.report t status view)) (ho : F.Timely s (.report t status view)) :
    Book.Along (About (F.incarnation t)) s.book (F.handle s.backend (.report t status view)).2 := by
  obtain ⟨hactive, hfork⟩ := hp
  obtain ⟨hrep, haccess⟩ := ho
  cases hends : status.ends with
  | true =>
    obtain ⟨x, -, hcalls, -⟩ := s.backend.handleReport_ends view (F.pid t) hends
    rw [handle, hcalls]
    exact about_quiet (h.current (h.current_of_active hactive (hrep (.inl hends)))) fun c hc => by
      rw [List.mem_singleton.mp hc]
      exact ⟨rfl, rfl⟩
  | false =>
    cases status with
    | exited code => cases hends
    | signaled sig => cases hends
    | stopped stop =>
      have hquiet : ∀ {cs : List SessionCall}, (∀ c ∈ cs, c.AccessOf (F.pid t)) →
          ∀ c ∈ cs, c.quiet = true ∧ c.pid = F.pid t := fun hcs c hc => ⟨(hcs c hc).quiet, (hcs c hc).pid_eq⟩
      by_cases hexec : stop = .exec
      · subst hexec
        obtain ⟨rec, hpid, -, hcalls⟩ := s.backend.handleReport_exec view (F.pid t)
        have hcur := h.current (h.current_of_active hactive (hrep (.inr rfl)))
        have hacc := hquiet (PtraceBackend.execAccess_accesses view (F.pid t))
        have hnote := (Booked.quiet h.pending h.booked.begun fun c hc => (hacc c hc).1).2
        rw [handle, hcalls]
        refine (Book.along_append _ _ _).mpr ⟨about_quiet hcur hacc, ?_⟩
        rw [hnote]
        refine ⟨hcur, ?_, trivial⟩
        simp only [About, SessionCall.pid, Book.note, hpid, if_true]
        exact hcur
      · obtain ⟨hacc, hcalls⟩ := s.backend.handleReport_calls view (F.pid t) hfork hexec
        rw [handle]
        by_cases hnil : (s.backend.handleReport view (F.pid t) (.stopped stop)).calls = []
        · rw [hnil]
          trivial
        · by_cases hsys : stop = .syscall
          · rw [if_pos hsys] at hcalls
            exact about_quiet (h.current (haccess (congrArg _ hsys) (hcalls ▸ hnil))) (hquiet hacc)
          · exact absurd (hcalls.trans (if_neg hsys)) hnil

/-- The calls of an event in order are about its task. -/
private theorem about {e : TaskEvent} (hp : F.Possible s.world e) (ho : F.Orderly s e) :
    Book.Along (About (F.incarnation (owner e))) s.book (F.handle s.backend e).2 := by
  cases e with
  | spawn c => trivial
  | vanish t => trivial
  | report t status view => exact h.about_report hp ho.2
  | forkEvent t c cwd cmdline view =>
    obtain ⟨⟨rec, hpid, hppid, hcalls⟩, -⟩ := s.backend.handleReport_fork view (F.pid t) (F.pid_range c).1.ne'
      (h.sane.pid_ne hp) cwd cmdline
    rw [handle, hcalls]
    refine ⟨?_, trivial⟩
    rw [About, h.note_fork hp ho.1 hpid]
    simp only [Book.current, SessionCall.pid, hpid, Function.update_self, Nat.add_sub_cancel]
    rfl

private theorem owner_rank {e : TaskEvent} (hp : F.Possible s.world e) (ho : F.Orderly s e)
    (hcalls : (F.handle s.backend e).2 ≠ []) : F.rank (owner e) ≤ 213 := by
  cases e with
  | spawn c => exact absurd rfl hcalls
  | vanish t => exact absurd rfl hcalls
  | forkEvent t c => exact ho.1.2.2
  | report t status view =>
    by_cases hrep : t ∈ s.world.reported
    · exact h.ranks t hrep
    · obtain ⟨-, hfork⟩ := hp
      cases status with
      | exited code => exact absurd (ho.2.1 (.inl rfl)) hrep
      | signaled sig => exact absurd (ho.2.1 (.inl rfl)) hrep
      | stopped stop =>
        have hexec : stop ≠ .exec := fun hx => hrep (ho.2.1 (.inr (congrArg _ hx)))
        have hsome := (s.backend.handleReport_calls view (F.pid t) hfork hexec).2
        by_cases hsys : stop = .syscall
        · rw [if_pos hsys] at hsome
          have hzero := (ho.2.2 (congrArg _ hsys) (hsome ▸ hcalls)).1.resolve_left hrep
          simp only [owner, hzero]
          omega
        · exact absurd (hsome.trans (if_neg hsys)) hcalls

/-- The calls after its end are not about a reported task. -/
theorem apart {e : TaskEvent} (hp : F.Possible s.world e) (ho : F.Orderly s e) {d : Nat} (hd : d ∈ s.world.reported)
    (hended : d ∈ s.world.ended) : Book.Along (Book.Apart (F.id d)) s.book (F.handle s.backend e).2 := by
  by_cases hnil : (F.handle s.backend e).2 = []
  · rw [hnil]
    trivial
  refine Runs.Along.imp (fun b c hc => ?_) (h.about hp ho)
  intro hid
  rw [hc] at hid
  have heq : owner e = d := F.incarnation_injective (Incarnation.id_injective (F.pid_range _)
    (h.owner_rank hp ho hnil) (F.pid_range d) (h.ranks d hd) hid)
  cases e with
  | spawn c => exact hnil rfl
  | vanish t => exact hnil rfl
  | report t status view =>
    obtain rfl : t = d := heq
    exact hp.1.2 hended
  | forkEvent t c =>
    obtain rfl : c = d := heq
    exact hp.2.2.2.1 hd

private theorem apart_run {es : List TaskEvent} (hp : Runs.Along F.step (fun s e => F.Possible s.world e) s es)
    (ho : Runs.Along F.step F.Orderly s es)
    {d : Nat} (hd : d ∈ s.world.reported) (hended : d ∈ s.world.ended) :
    ∃ cs, (F.run s es).calls = s.calls ++ cs ∧ Book.Along (Book.Apart (F.id d)) s.book cs := by
  induction es generalizing s with
  | nil => exact ⟨[], (List.append_nil _).symm, trivial⟩
  | cons e es ih =>
    have hstep := h.step hp.1 ho.1.2.forksFirst ho.1.1
    have hd' : d ∈ (F.step s e).world.reported := by
      cases e with
      | forkEvent t c => exact Finset.mem_insert_of_mem hd
      | report t status =>
        simp only [Family.step, TaskWorld.step]
        split <;> exact hd
      | _ => exact hd
    have hended' : d ∈ (F.step s e).world.ended := by
      cases e with
      | vanish t => exact Finset.mem_insert_of_mem hended
      | report t status =>
        simp only [Family.step, TaskWorld.step]
        split
        · exact Finset.mem_insert_of_mem hended
        · exact hended
      | _ => exact hended
    obtain ⟨cs, hcs, hapart⟩ := ih hstep hp.2 ho.2 hd' hended'
    refine ⟨(F.handle s.backend e).2 ++ cs, ?_, ?_⟩
    · rw [run_cons, hcs, Family.step, List.append_assoc]
    · refine (Book.along_append _ _ _).mpr ⟨h.apart hp.1 ho.1 hd hended, ?_⟩
      rw [Tracing.book, Family.step, Book.noteAll_append] at hapart
      exact hapart

end Attributed

/-- The tracer has no entry under the pid of a task whose exit was reported, until the pid is reused. -/
structure Cleared (F : Family) (s : Tracing) : Prop where
  reported : s.world.exited ⊆ s.world.reported
  procs : ∀ t ∈ s.world.exited, (∀ d ∈ s.world.spawned, F.pid d = F.pid t → d ≤ t) → s.backend.procs (F.pid t) = none

theorem Cleared.step {s : Tracing} (hc : F.Cleared s) (h : F.Attributed s) {e : TaskEvent}
    (hp : F.Possible s.world e) (ho : F.Orderly s e) : F.Cleared (F.step s e) := by
  -- a task that still reports is not the last holder of the pid of an exited one
  have hother : ∀ t ∈ s.world.exited, (∀ d ∈ s.world.spawned, F.pid d = F.pid t → d ≤ t) →
      ∀ u, s.world.Active u → F.pid t ≠ F.pid u := fun t ht hlast u hu hpid => by
    have hgone := h.sane.exited ht
    rcases (hlast u hu.1 hpid.symm).eq_or_lt with rfl | hlt
    · exact hu.2 hgone
    · exact hu.2 (h.sane.holders t (h.sane.ended hgone) u hlt hpid.symm)
  cases e with
  | spawn c => exact ⟨hc.reported, fun t ht hlast => hc.procs t ht fun d hd => hlast d (Finset.mem_insert_of_mem hd)⟩
  | vanish t => exact ⟨hc.reported, hc.procs⟩
  | forkEvent t c cwd cmdline view =>
    obtain ⟨-, -, -, hrest⟩ := s.backend.handleReport_fork view (F.pid t) (F.pid_range c).1.ne' (h.sane.pid_ne hp) cwd
      cmdline
    obtain ⟨hpos, hpar, hspawned, hnew, hactive⟩ := hp
    refine ⟨hc.reported.trans (Finset.subset_insert _ _), fun u hu hlast => ?_⟩
    have huc : F.pid u ≠ F.pid c := fun huc => by
      rcases (hlast c hspawned huc.symm).eq_or_lt with rfl | hlt
      · exact hnew (hc.reported hu)
      · exact hnew (h.closed u (hc.reported hu) c hlt huc.symm)
    exact (hrest _ (hother u hu hlast t hactive) huc).trans (hc.procs u hu hlast)
  | report t status view =>
    obtain ⟨hactive, hfork⟩ := hp
    cases hends : status.ends with
    | true =>
      obtain ⟨x, -, -, hprocs⟩ := s.backend.handleReport_ends view (F.pid t) hends
      simp only [Family.step, TaskWorld.step, hends, if_true]
      refine ⟨Finset.insert_subset (ho.2.1 (.inl hends)) hc.reported, fun u hu hlast => ?_⟩
      simp only [handle, hprocs]
      rcases Finset.mem_insert.mp hu with rfl | hu
      · exact Function.update_self ..
      · rw [Function.update_of_ne (hother u hu hlast t hactive)]
        exact hc.procs u hu hlast
    | false =>
      simp only [Family.step, TaskWorld.step, hends, Bool.false_eq_true, if_false]
      refine ⟨hc.reported, fun u hu hlast => ?_⟩
      cases status with
      | exited code => cases hends
      | signaled sig => cases hends
      | stopped stop =>
        obtain ⟨ps, -, hprocs⟩ := s.backend.handleReport_own view (F.pid t) hfork
        rw [handle, hprocs, Function.update_of_ne (hother u hu hlast t hactive)]
        exact hc.procs u hu hlast

section
variable {procsOnly seccompMode : Bool} {view : TraceeView} {es : List TaskEvent}

private theorem orderly_run
    (hp : Runs.Along F.step (fun s e => F.Possible s.world e) (F.start procsOnly seccompMode view) es)
    (ho : Runs.Along F.step F.Orderly (F.start procsOnly seccompMode view) es) :
    F.Attributed (F.run (F.start procsOnly seccompMode view) es) ∧
      F.Cleared (F.run (F.start procsOnly seccompMode view) es) := by
  refine Runs.run_invariant (I := fun s => F.Attributed s ∧ F.Cleared s) (fun s e h hc => ?_)
    ⟨attributed_start .., ?_⟩ (hp.and ho)
  · exact ⟨h.1.step hc.1 hc.2.2.forksFirst hc.2.1, h.2.step h.1 hc.1 hc.2⟩
  · exact ⟨Finset.empty_subset _, fun t ht => (by cases ht)⟩

end

/-- Once a reported task has ended, what a finalize leaves under its id is settled. -/
theorem Attributed.settled {s : Tracing} (h : F.Attributed s) {es : List TaskEvent}
    (hp : Runs.Along F.step (fun s e => F.Possible s.world e) s es) (ho : Runs.Along F.step F.Orderly s es)
    (hend : F.Attributed (F.run s es)) {t : Nat} (ht : t ∈ s.world.reported) (hended : t ∈ s.world.ended)
    {early sched : List PipelineAct} (hearly : Pipeline.callsOf early = s.calls)
    (hs : Pipeline.callsOf sched = (F.run s es).calls) :
    ((Pipeline.opened {}).run sched).finalize.committed.under (F.id t) =
      ((Pipeline.opened {}).run early).finalize.committed.under (F.id t) := by
  obtain ⟨cs, hcs, hapart⟩ := h.apart_run hp ho ht hended
  have hcalls : Pipeline.callsOf sched = Pipeline.callsOf early ++ cs := by
    rw [hs, hcs, hearly]
  have hadm : Book.Admitted {} (Pipeline.callsOf sched) := hs ▸ hend.booked.admitted
  exact Pipeline.finalized_apart (by decide) (h.onAdmitted hearly) (hend.onAdmitted hs) hcalls hadm (hearly ▸ hapart)

private theorem callsOf_map (cs : List SessionCall) : Pipeline.callsOf (cs.map .call) = cs := by
  simp only [Pipeline.callsOf, List.filterMap_map, Function.comp_def, PipelineAct.call?, List.filterMap_some]

/-- An exit report puts its time into the task's row. -/
private theorem exit_time {s : Tracing} (h : F.Attributed s) {t : Nat} (hcur : F.Current s.world t) {x : ProcessExit}
    {early : List PipelineAct} (hearly : Pipeline.callsOf early = s.calls ++ [.processExit (F.pid t) x])
    (hon : Pipeline.OnProtocol {} early) :
    ∀ r ∈ ((Pipeline.opened {}).run early).finalize.committed.processes, r.pid = F.id t →
      r.endTimeUs = x.endTimeUs := by
  obtain ⟨-, hfor⟩ := TraceSession.call_tracks (h.tracks rfl) (c := .processExit (F.pid t) x) h.pending
  have hid : ((Tracing.book s).current (F.pid t)).id = F.id t := congrArg Incarnation.id (h.current hcur)
  have hev : ((({} : TraceSession).calls s.calls).1.call false (.processExit (F.pid t) x)).2 =
      some (.procExit (F.id t) x) := by
    rw [← hid]
    exact hfor
  intro r hr hrid
  rw [(hon.finalized (by decide)).1, hearly, TraceSession.calls_append, Writer.rowsAfter_append] at hr
  simp only [TraceSession.calls, hev, Option.toList_some, List.append_nil, Writer.rowsAfter, List.foldl_cons,
    List.foldl_nil, QueuedEvent.onProcesses] at hr
  obtain ⟨r', hr', rfl⟩ := List.mem_map.mp hr
  obtain ⟨r'', -, rfl⟩ := List.mem_map.mp hr'
  by_cases heq : r''.pid = F.id t
  · rw [if_pos heq]
    rfl
  · rw [if_neg heq] at hrid
    exact absurd hrid heq

/-- The time of an exit report is still in the task's row at the end of the run. -/
private theorem exit_kept {s : Tracing} (h : F.Attributed s) {t : Nat} {status : WaitStatus} {view : TraceeView}
    {after : List TaskEvent} (hends : status.ends = true)
    (hp : Runs.Along F.step (fun s e => F.Possible s.world e) s (.report t status view :: after))
    (ho : Runs.Along F.step F.Orderly s (.report t status view :: after))
    (hend : F.Attributed (F.run s (.report t status view :: after))) {sched : List PipelineAct}
    (hs : Pipeline.callsOf sched = (F.run s (.report t status view :: after)).calls) :
    ∀ r ∈ ((Pipeline.opened {}).run sched).finalize.committed.processes, r.pid = F.id t →
      r.endTimeUs = view.now := by
  intro r hr hid
  have hrep := ho.1.2.1 (.inl hends)
  have h1 : F.Attributed (F.step s (.report t status view)) := h.step hp.1 ho.1.2.forksFirst ho.1.1
  obtain ⟨x, hx, hcalls, -⟩ := s.backend.handleReport_ends view (F.pid t) hends
  have hearly := callsOf_map (F.step s (.report t status view)).calls
  have hworld : t ∈ (s.world.step (.report t status view)).reported ∧
      t ∈ (s.world.step (.report t status view)).ended := by
    simp only [TaskWorld.step, hends, if_true]
    exact ⟨hrep, Finset.mem_insert_self _ _⟩
  have hsettled := h1.settled hp.2 ho.2 hend hworld.1 hworld.2 hearly hs
  have hmem : r ∈ (((Pipeline.opened {}).run sched).finalize.committed.under (F.id t)).1 :=
    List.mem_filter.mpr ⟨hr, decide_eq_true hid⟩
  rw [hsettled] at hmem
  rw [← hx]
  refine exit_time h (h.current_of_active hp.1.1 hrep) (hearly.trans ?_) (h1.onAdmitted hearly) r
    (List.mem_of_mem_filter hmem) hid
  rw [Family.step, handle, hcalls]

/-- An access call of an event is kept under the id of the event's task. -/
private theorem access_kept {s : Tracing} (h : F.Attributed s) {e : TaskEvent} (hp : F.Possible s.world e)
    (ho : F.Orderly s e) {final : Tracing} (hfinal : F.Attributed final) {cs : List SessionCall}
    (hcs : final.calls = (F.step s e).calls ++ cs) {c : SessionCall} (hc : c ∈ (F.handle s.backend e).2)
    {sched : List PipelineAct} (hs : Pipeline.callsOf sched = final.calls) :
    ((Pipeline.opened {}).run sched).finalize.committed.Keeps (F.id (owner e)) c := by
  obtain ⟨l, r, hsplit⟩ := List.append_of_mem hc
  have habout := h.about hp ho
  rw [hsplit, Book.along_append] at habout
  have hid : ((Book.noteAll {} ((s.calls ++ l) ++ [c])).current c.pid).id = F.id (owner e) := by
    rw [Book.noteAll_append, Book.noteAll_append]
    exact congrArg Incarnation.id habout.2.1
  have hcalls : final.calls = (s.calls ++ l) ++ c :: (r ++ cs) := by
    rw [hcs, Family.step, hsplit]
    simp only [List.append_assoc, List.cons_append]
  have hstored := @TraceSession.calls_stored (s.calls ++ l) (r ++ cs) c (hcalls ▸ hfinal.booked.admitted)
  rw [hid, ← hcalls, ← hs] at hstored
  obtain ⟨-, hacc, hfail⟩ := (hfinal.onAdmitted hs).finalized (by decide)
  cases c with
  | fileAccess rec =>
    obtain ⟨fa, hmem, hrest⟩ := hstored
    refine ⟨fa, ?_, hrest⟩
    rw [hacc]
    exact List.mem_append_right _ (List.mem_filterMap.mpr ⟨_, hmem, rfl⟩)
  | failedAccess rec =>
    obtain ⟨failed, hmem, hrest⟩ := hstored
    refine ⟨failed, ?_, hrest⟩
    rw [hfail]
    exact List.mem_append_right _ (List.mem_filterMap.mpr ⟨_, hmem, rfl⟩)
  | _ => trivial

private theorem calls_prefix (s : Tracing) (es : List TaskEvent) : ∃ cs, (F.run s es).calls = s.calls ++ cs := by
  induction es generalizing s with
  | nil => exact ⟨[], (List.append_nil _).symm⟩
  | cons e es ih =>
    obtain ⟨cs, hcs⟩ := ih (F.step s e)
    exact ⟨(F.handle s.backend e).2 ++ cs, by rw [run_cons, hcs, Family.step, List.append_assoc]⟩

/-- The exec of the child is reported before the parent's fork event. -/
theorem exec_before_fork : Runs.Along reusedParent.step (fun s e => reusedParent.Possible s.world e)
      (reusedParent.start false false {}) [.spawn 1, .report 1 (.stopped .exec) {}, .forkEvent 0 1 [] [] {}] ∧
    ∃ sched, Pipeline.callsOf sched = (reusedParent.run (reusedParent.start false false {})
        [.spawn 1, .report 1 (.stopped .exec) {}, .forkEvent 0 1 [] [] {}]).calls ∧
      ∀ r ∈ ((Pipeline.opened {}).run sched).finalize.committed.processes,
        r.pid = reusedParent.id 1 → r.ppid = 0 ∧ r.ppid ≠ reusedParent.ppidOf 1 := by
  refine ⟨by decide, (reusedParent.run (reusedParent.start false false {})
    [.spawn 1, .report 1 (.stopped .exec) {}, .forkEvent 0 1 [] [] {}]).calls.map .call, by decide, by decide⟩

/-- Fork, exec and exit in any order that meets the condition at every step. Each reported task has one
row, under the process that forked it, with the time of its exit if that was reported; its accesses are
under its id; nothing under the id of an ended task changes any more; and the tracer has no entry of an
exited task. -/
theorem interleavings_kept (F : Family) (procsOnly seccompMode : Bool) (view : TraceeView) (es : List TaskEvent)
    (hp : Runs.Along F.step (fun s e => F.Possible s.world e) (F.start procsOnly seccompMode view) es)
    (ho : Runs.Along F.step F.Orderly (F.start procsOnly seccompMode view) es) (sched : List PipelineAct)
    (hs : Pipeline.callsOf sched = (F.run (F.start procsOnly seccompMode view) es).calls) :
    (∀ c ∈ (F.run (F.start procsOnly seccompMode view) es).world.reported, ∃ r,
      (((Pipeline.opened {}).run sched).finalize.committed.processes.filter fun r => r.pid = F.id c) = [r] ∧
        r.ppid = F.ppidOf c) ∧
    (∀ before t status view' after, es = before ++ .report t status view' :: after → status.ends = true →
      ∀ r ∈ ((Pipeline.opened {}).run sched).finalize.committed.processes, r.pid = F.id t → r.endTimeUs = view'.now) ∧
    (∀ before e after, es = before ++ e :: after →
      ∀ c ∈ (F.handle (F.run (F.start procsOnly seccompMode view) before).backend e).2,
        ((Pipeline.opened {}).run sched).finalize.committed.Keeps (F.id (owner e)) c) ∧
    (∀ before after early, es = before ++ after →
      Pipeline.callsOf early = (F.run (F.start procsOnly seccompMode view) before).calls →
      ∀ t ∈ (F.run (F.start procsOnly seccompMode view) before).world.reported,
        t ∈ (F.run (F.start procsOnly seccompMode view) before).world.ended →
        ((Pipeline.opened {}).run sched).finalize.committed.under (F.id t) =
          ((Pipeline.opened {}).run early).finalize.committed.under (F.id t)) ∧
    ∀ t ∈ (F.run (F.start procsOnly seccompMode view) es).world.exited,
      (∀ d ∈ (F.run (F.start procsOnly seccompMode view) es).world.spawned, F.pid d = F.pid t → d ≤ t) →
      (F.run (F.start procsOnly seccompMode view) es).backend.procs (F.pid t) = none := by
  obtain ⟨h, hclear⟩ := orderly_run hp ho
  obtain ⟨hrows, hall⟩ := h.finalized hs
  have hsplit : ∀ before after, es = before ++ after →
      F.Attributed (F.run (F.start procsOnly seccompMode view) before) ∧
      Runs.Along F.step (fun s e => F.Possible s.world e) (F.run (F.start procsOnly seccompMode view) before) after ∧
      Runs.Along F.step F.Orderly (F.run (F.start procsOnly seccompMode view) before) after ∧
      F.run (F.run (F.start procsOnly seccompMode view) before) after =
        F.run (F.start procsOnly seccompMode view) es := by
    rintro before after rfl
    obtain ⟨hp1, hp2⟩ := (Runs.along_append _ _ _).mp hp
    obtain ⟨ho1, ho2⟩ := (Runs.along_append _ _ _).mp ho
    exact ⟨(orderly_run hp1 ho1).1, hp2, ho2, (run_append _ _ _).symm⟩
  refine ⟨fun c hc => ?_, ?_, ?_, ?_, hclear.procs⟩
  · obtain ⟨r, hr, hid, hppid⟩ := hall c hc
    refine ⟨r, ?_, hppid⟩
    rw [← hid]
    have hk := Pipeline.finalize_pids_nodup (t := {}) (by decide) (by decide) sched
    exact filter_key ProcessRecord.pid hk hr
  · intro before t status view' after hes hends
    obtain ⟨h0, hp', ho', hrun⟩ := hsplit before (.report t status view' :: after) hes
    exact exit_kept h0 hends hp' ho' (hrun ▸ h) (hrun ▸ hs)
  · intro before e after hes c hc
    obtain ⟨h0, hp', ho', hrun⟩ := hsplit before (e :: after) hes
    obtain ⟨cs, hcs⟩ := calls_prefix (F.step (F.run (F.start procsOnly seccompMode view) before) e) after
    rw [run_cons] at hrun
    exact access_kept h0 hp'.1 ho'.1 h (hrun ▸ hcs) hc hs
  · intro before after early hes hearly t ht hended
    obtain ⟨h0, hp', ho', hrun⟩ := hsplit before after hes
    exact h0.settled hp' ho' (hrun ▸ h) ht hended hearly (hrun ▸ hs)

/-- The child's exec and exit come after its fork event, and its parent's exit before. -/
theorem child_kept : ∃ r, (((Pipeline.opened {}).run ((reusedParent.run (reusedParent.start false false {})
      [.spawn 1, .report 1 (.stopped (.signal sigstop)) {}, .forkEvent 0 1 [] [] {}, .report 1 (.stopped .exec) {},
        .report 0 (.exited 0) {}, .report 1 (.exited 0) { now := 9 }]).calls.map
          .call)).finalize.committed.processes.filter
    fun r => r.pid = reusedParent.id 1) = [r] ∧ r.ppid = reusedParent.ppidOf 1 :=
  (interleavings_kept reusedParent false false {}
    [.spawn 1, .report 1 (.stopped (.signal sigstop)) {}, .forkEvent 0 1 [] [] {}, .report 1 (.stopped .exec) {},
      .report 0 (.exited 0) {}, .report 1 (.exited 0) { now := 9 }] (by decide) (by decide) _
    (by decide)).1 1 (by decide)

end Family
end Bdtrace
