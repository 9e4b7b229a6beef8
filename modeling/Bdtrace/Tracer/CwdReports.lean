import Bdtrace.Tracer.CwdInvariant

/-! The cached working directories at the events of the tasks: what any event keeps, the stops and the ends. -/
namespace Bdtrace
namespace Family
variable {F : Family} {setup : Setup}

/-! ### What an event does to the tasks of the run -/

section
variable {r : CwdRun} {shares : Bool} {e : TaskEvent} {t : Nat} {p : Place}

/-- An event of the family other than a spawn, which moves the task `t` to `p`. -/
theorem cwdStep_event (hspawn : ∀ c, e ≠ .spawn c) (hnext : F.nextPlace setup r (.task shares e) = some (t, p)) :
    F.cwdStep setup r (.task shares e) =
      { r with
        tracing := F.step r.tracing e
        place := Function.update r.place t p
        seen := r.seen ∪ e.reporter.toFinset
        astray := strays setup r (.task shares e)
        mistaken := r.mistaken ∪ F.mistakes r e
        restart := F.nextRestart r.tracing.backend r.restart e } := by
  have hinherit : F.inherit r shares e = r := by
    cases e with
    | spawn c => exact absurd rfl (hspawn c)
    | _ => rfl
  simp only [cwdStep, hinherit, hnext]
  rfl

/-- Only a task that reports finds its way back. -/
private theorem strays_keeps {u : Nat} (hu : u ∈ r.astray) :
    u ∈ strays setup r (.task shares e) ∨ (e.reporter = some u ∧ u ∈ r.tracing.world.reported) := by
  cases e with
  | forkEvent t c cwd cmdline view =>
    simp only [strays]
    split
    · exact .inl (Finset.mem_insert_of_mem hu)
    · exact .inl hu
  | report t status view =>
    cases status with
    | stopped stop =>
      simp only [strays]
      split
      · rename_i hback
        by_cases hut : u = t
        · exact .inr ⟨congrArg some hut.symm, hut ▸ hback.1⟩
        · exact .inl (Finset.mem_erase_of_ne_of_mem hut hu)
      · exact .inl hu
    | _ => exact .inl hu
  | _ => exact .inl hu

structure EventEffect (r r' : CwdRun) (e : TaskEvent) (t : Nat) (p : Place) : Prop where
  place : r'.place t = p
  other : ∀ u, u ≠ t → r'.place u = r.place u
  dir : ∀ u, r'.dir u = r.dir u
  reported : ∀ u, u ∈ r'.tracing.world.reported ↔ u ∈ r.tracing.world.reported ∨ e.forked = some u
  restart : ∀ u, e.reporter ≠ some u → r'.restart u = r.restart u
  astray : ∀ u ∈ r.astray, u ∈ r'.astray ∨ (e.reporter = some u ∧ u ∈ r.tracing.world.reported)
  seen : r'.seen = r.seen ∪ e.reporter.toFinset
  fs : r'.fs = r.fs

theorem cwdStep_effect (hspawn : ∀ c, e ≠ .spawn c) (hnext : F.nextPlace setup r (.task shares e) = some (t, p)) :
    EventEffect r (F.cwdStep setup r (.task shares e)) e t p := by
  rw [cwdStep_event hspawn hnext]
  refine ⟨Function.update_self .., fun u hu => Function.update_of_ne hu _ _, fun _ => rfl, fun u => ?_, fun u hu => ?_,
    fun u hu => strays_keeps hu, rfl, rfl⟩
  · rw [Family.step, TaskWorld.reported_step, Finset.mem_union, Option.mem_toFinset, Option.mem_def]
  · cases e with
    | forkEvent v c cwd cmdline view => exact Function.update_of_ne (fun huv => hu (congrArg some huv.symm)) _ _
    | report v status view => exact Function.update_of_ne (fun huv => hu (congrArg some huv.symm)) _ _
    | _ => rfl

/-! ### What a task that is not mistaken meets -/

private theorem first_entry (hown : t ∉ F.mistakes r e) (ht : e.reporter = some t) (hnew : t ∉ r.tracing.world.reported)
    (hseen : t ∉ r.seen) : r.tracing.backend.procs (F.pid t) = none := by
  by_contra hne
  apply hown
  simp only [mistakes, Finset.mem_union, Finset.mem_filter, Option.mem_toFinset, Option.mem_def]
  exact .inl (.inl ⟨ht, hnew, hseen, Option.isSome_iff_ne_none.mpr hne⟩)

theorem forked_entry {c : Nat} (hown : c ∉ F.mistakes r e) (hc : e.forked = some c) (hseen : c ∉ r.seen)
    {ps : ProcessState} (hps : r.tracing.backend.procs (F.pid c) = some ps) : ps.ppid ≠ 0 := by
  intro hppid
  apply hown
  simp only [mistakes, Finset.mem_union, Finset.mem_filter, Option.mem_toFinset, Option.mem_def]
  exact .inl (.inr ⟨hc, hseen, ps, hps, hppid⟩)

private theorem later_owner {c d : Nat} (hown : d ∉ F.mistakes r e) (hd : d ∈ r.tracing.world.reported ∨ d ∈ r.seen)
    (hc : e.forked = some c) (hpid : F.pid d = F.pid c) : d ≤ c := by
  by_contra hlt
  apply hown
  simp only [mistakes, Finset.mem_union, Finset.mem_filter]
  exact .inr ⟨hd.symm, c, hc, hpid, not_le.mp hlt⟩

/-! ### What an event keeps -/

/-- The reporting task is in its new place, in its old directory. -/
private theorem DirsKept.step_event (h : F.DirsKept setup r) (hspawn : ∀ c, e ≠ .spawn c)
    (hp : F.Possible r.tracing.world e)
    (hnext : F.nextPlace setup r (.task shares e) = some (t, p))
    (hreporter : e.reporter = some t ∨ e.reporter = none ∧ p = .dying) (hforked : ∀ regs c, p ≠ .forked regs c)
    (hmoved : ∀ regs ret before, p = .returning regs ret before → before = r.dir t) :
    F.DirsKept setup (F.cwdStep setup r (.task shares e)) := by
  have heffect := cwdStep_effect hspawn hnext
  have hworld : (F.cwdStep setup r (.task shares e)).tracing.world = r.tracing.world.step e := rfl
  have hspawned : (r.tracing.world.step e).spawned = r.tracing.world.spawned := r.tracing.world.spawned_step hspawn
  have hlive : ∀ {u}, (r.tracing.world.step e).Active u → r.tracing.world.Active u := fun {u} hu =>
    ⟨hspawned ▸ hu.1, fun hm => hu.2 (TaskWorld.ended_subset _ _ hm)⟩
  have hastray : ∀ {u}, u ∉ (F.cwdStep setup r (.task shares e)).astray →
      e.reporter ≠ some u ∨ u ∉ r.tracing.world.reported → u ∉ r.astray := fun {u} hu hquiet hm =>
    (heffect.astray u hm).elim hu fun hback => hquiet.elim (fun hq => hq hback.1) fun hq => hq hback.2
  have hquiet : ∀ {u}, u ≠ t → e.reporter ≠ some u := by
    intro u hut hr
    rcases hreporter with hr' | ⟨hr', -⟩
    · exact hut (Option.some.inj (hr.symm.trans hr'))
    · cases hr.symm.trans hr'
  refine ⟨h.sane.step hp, ?_, ?_, ?_, ?_, ?_⟩
  · intro u hu
    rw [hworld, hspawned]
    rcases Finset.mem_union.mp (heffect.seen ▸ hu) with hu | hu
    · exact h.seen hu
    · exact (reporter_active hp (Option.mem_toFinset.mp hu)).1
  · intro u hu
    rw [hworld, hspawned] at hu ⊢
    rw [heffect.fs]
    exact h.groups u hu
  · intro u hu hroot
    rw [heffect.seen, Finset.mem_union, not_or, Option.mem_toFinset] at hu
    by_cases hut : u = t
    · subst hut
      rcases hreporter with hr | ⟨-, rfl⟩
      · exact absurd hr hu.2
      · exact .inr heffect.place
    · rw [heffect.other u hut]
      exact h.unborn u hu.1 hroot
  · intro u regs c hu hactive
    have hut : u ≠ t := fun hut => by
      subst hut
      exact hforked regs c (heffect.place.symm.trans hu)
    obtain ⟨hc, hsame⟩ := h.forked u regs c ((heffect.other u hut).symm.trans hu) (hlive hactive)
    refine ⟨TaskWorld.spawned_subset _ _ hc, fun hnew hend hua hca => ?_⟩
    have hnew : c ∉ r.tracing.world.reported := fun hm => hnew ((heffect.reported c).mpr (.inl hm))
    rw [heffect.dir, heffect.dir]
    exact hsame hnew (fun hm => hend (TaskWorld.ended_subset _ _ hm)) (hastray hua (.inl (hquiet hut)))
      (hastray hca (.inr hnew))
  · intro u regs ret before hu hactive hua
    rw [heffect.dir]
    by_cases hut : u = t
    · subst hut
      exact .inl (hmoved regs ret before (heffect.place.symm.trans hu))
    · refine (h.moved u regs ret before ((heffect.other u hut).symm.trans hu) (hlive hactive)
        (hastray hua (.inl (hquiet hut)))).imp_right ?_
      rintro ⟨hf, hm, hrest⟩
      exact ⟨hf, (heffect.reported u).mpr (.inl hm), hrest⟩

end

namespace CwdKept
variable {r : CwdRun} (h : F.CwdKept setup r)
include h

/-- An event leaves the entry of a living task that it is not about. -/
private theorem entry_other {shares : Bool} {e : TaskEvent} {t u : Nat} {p : Place} (hspawn : ∀ c, e ≠ .spawn c)
    (hp : F.Possible r.tracing.world e) (hnext : F.nextPlace setup r (.task shares e) = some (t, p))
    (hquiet : e.reporter ≠ some u) (hut : u ≠ t) (hchild : e.forked ≠ some u) (hactive : r.tracing.world.Active u)
    (hdying : r.place u ≠ .dying) (hknown : u ∈ r.tracing.world.reported ∨ u ∈ r.seen)
    (hown : u ∉ r.mistaken ∪ F.mistakes r e) :
    ∃ ps, (F.handle r.tracing.backend e).1.procs (F.pid u) = some ps ∧
      Holds setup (F.cwdStep setup r (.task shares e)) u ps := by
  have heffect := cwdStep_effect hspawn hnext
  obtain ⟨hown, hmistake⟩ := not_or.mp (mt Finset.mem_union.mpr hown)
  obtain ⟨ps, hps, hholds⟩ := h.entries u hactive hdying hknown hown
  have hprocs := h.sane.handle_other hp hactive hquiet
    (fun c hc => ⟨fun huc => hchild (huc ▸ hc), fun hpid => later_owner hmistake hknown hc hpid⟩) r.tracing.backend
  refine ⟨ps, hprocs.trans hps, hholds.congr (fun hm => ?_) (heffect.other u hut) (fun _ => heffect.dir u)
    (heffect.restart u hquiet) ((heffect.reported u).trans (or_iff_left hchild))⟩
  exact (heffect.astray u hm).resolve_right fun hback => hquiet hback.1

theorem step_event {shares : Bool} {e : TaskEvent} {t : Nat} {p : Place} (hspawn : ∀ c, e ≠ .spawn c)
    (hp : F.Possible r.tracing.world e) (hnext : F.nextPlace setup r (.task shares e) = some (t, p))
    (hreporter : e.reporter = some t ∨ e.reporter = none ∧ p = .dying) (hforked : ∀ regs c, p ≠ .forked regs c)
    (hmoved : ∀ regs ret before, p = .returning regs ret before → before = r.dir t)
    (hself : p ≠ .dying → t ∉ r.mistaken ∪ F.mistakes r e →
      ∃ ps, (F.handle r.tracing.backend e).1.procs (F.pid t) = some ps ∧
        Holds setup (F.cwdStep setup r (.task shares e)) t ps)
    (hchild : ∀ c ∈ e.forked, c ∉ r.tracing.world.ended → r.place c ≠ .dying → c ∉ r.mistaken ∪ F.mistakes r e →
      ∃ ps, (F.handle r.tracing.backend e).1.procs (F.pid c) = some ps ∧
        Holds setup (F.cwdStep setup r (.task shares e)) c ps) :
    F.CwdKept setup (F.cwdStep setup r (.task shares e)) := by
  have heffect := cwdStep_effect hspawn hnext
  obtain ⟨hprocs, hseccomp⟩ := handle_mode (F := F) r.tracing.backend e
  refine ⟨h.toDirsKept.step_event hspawn hp hnext hreporter hforked hmoved,
    ⟨hprocs.trans h.mode.1, hseccomp.trans h.mode.2⟩, fun u hactive hdying hknown hown => ?_⟩
  have hactive : r.tracing.world.Active u :=
    ⟨r.tracing.world.spawned_step hspawn ▸ hactive.1, fun hm => hactive.2 (TaskWorld.ended_subset _ _ hm)⟩
  by_cases hut : u = t
  · subst hut
    exact hself (heffect.place ▸ hdying) hown
  rw [heffect.other u hut] at hdying
  by_cases hforks : e.forked = some u
  · exact hchild u hforks hactive.2 hdying hown
  · have hquiet : e.reporter ≠ some u := by
      rcases hreporter with hr | ⟨hr, -⟩
      · rw [hr]
        exact fun heq => hut (Option.some.inj heq).symm
      · simp [hr]
    apply h.entry_other hspawn hp hnext hquiet hut hforks hactive hdying _ hown
    refine hknown.imp (fun hm => ((heffect.reported u).mp hm).resolve_right hforks) fun hm => ?_
    rw [heffect.seen, Finset.mem_union, Option.mem_toFinset] at hm
    exact hm.resolve_right hquiet

/-- The entry that the report of a task meets. -/
theorem entry {e : TaskEvent} {t : Nat} (ht : e.reporter = some t) (hactive : r.tracing.world.Active t)
    (hdying : r.place t ≠ .dying) (hown : t ∉ r.mistaken ∪ F.mistakes r e) :
    Holds setup r t (r.tracing.backend.entry (F.pid t)) := by
  obtain ⟨hown, hmistake⟩ := not_or.mp (mt Finset.mem_union.mpr hown)
  by_cases hknown : t ∈ r.tracing.world.reported ∨ t ∈ r.seen
  · obtain ⟨ps, hps, hholds⟩ := h.entries t hactive hdying hknown hown
    simp only [PtraceBackend.entry, hps, Option.getD_some]
    exact hholds
  · obtain ⟨hreported, hseen⟩ := not_or.mp hknown
    have hroot : t ≠ 0 := fun hroot => hreported (hroot ▸ h.sane.root.2)
    have hborn := (h.unborn t hseen hroot).resolve_right hdying
    simp only [PtraceBackend.entry, first_entry hmistake ht hreported hseen, Option.getD_none]
    refine ⟨fun _ => .inr ⟨rfl, hreported⟩, fun _ => rfl, fun _ => ?_⟩
    rw [hborn]
    exact fun hphase => by cases hphase

omit h in
/-- The exit stop of a call that has moved the task, seen with the task's own entry. -/
private theorem cached_moved {t : Nat} {stop : Stop} {view : TraceeView} {p : Place} {ps : ProcessState} {regs : Regs}
    {ret : BitVec 64} {before : Str} (hold : Holds setup r t ps) (hf : setup.follows)
    (hplace : r.place t = .returning regs ret before) (hret : 0 ≤ ret.toInt) (hmoves : regs.movesDir = true)
    (hstop : (r.place t).stopped setup.seccompMode (r.restart t) (r.dir t) view.regs stop = some p)
    (hlive : p ≠ .dying) :
    (r.tracing.backend.handleOwnStop view (F.pid t) ps stop).1.1.cachedCwd = view.cwd := by
  obtain ⟨rfl, hsyscall, hregs⟩ := ((Place.stopped_cases hstop).exit regs ret before hplace).resolve_left hlive
  have hsynced := hold.synced hf
  rw [hplace] at hsynced
  exact exit_moved view (F.pid t) ps (hsynced.armed hsyscall) hmoves hret hregs

/-- A stop leaves the directory of the task in the cache, also the exit stop of a call that changed it. -/
private theorem cached_stop (shares : Bool) {t : Nat} {stop : Stop} {view : TraceeView} {p : Place} {ps : ProcessState}
    (hold : Holds setup r t ps) (hactive : r.tracing.world.Active t) (hcwd : view.cwd = r.dir t)
    (hstop : (r.place t).stopped setup.seccompMode (r.restart t) (r.dir t) view.regs stop = some p) (hlive : p ≠ .dying)
    (hastray : t ∉ strays setup r (.task shares (.report t (.stopped stop) view))) :
    (r.tracing.backend.handleOwnStop view (F.pid t) ps stop).1.1.cachedCwd = r.dir t ∨
      ((r.tracing.backend.handleOwnStop view (F.pid t) ps stop).1.1.cachedCwd = [] ∧ t ∉ r.tracing.world.reported) := by
  by_cases ht : t ∈ r.astray
  · -- the task finds its way back
    have hback : refreshes setup r t stop = true := by
      by_contra hno
      simp only [strays] at hastray
      rw [if_neg fun hback => hno hback.2] at hastray
      exact hastray ht
    cases stop with
    | exec => exact .inl hcwd
    | syscall =>
      simp only [refreshes] at hback
      split at hback
      · rename_i regs ret before hplace
        simp only [Bool.and_eq_true, decide_eq_true_eq] at hback
        exact .inl ((cached_moved hold hback.1.1 hplace hback.2 hback.1.2 hstop hlive).trans hcwd)
      · cases hback
    | _ => cases hback
  · by_cases hstill : ∀ regs ret before, r.place t = .returning regs ret before → before = r.dir t
    · rcases handleOwnStop_cached view (F.pid t) ps r.tracing.backend stop with hc | hc
      · rw [hc, ← lookupDir_eq hstill]
        exact hold.cached ht
      · exact .inl (hc.trans hcwd)
    · push Not at hstill
      obtain ⟨regs, ret, before, hplace, hne⟩ := hstill
      obtain ⟨hf, -, hret, hmoves⟩ := (h.moved t regs ret before hplace hactive ht).resolve_left hne
      exact .inl ((cached_moved hold hf hplace hret hmoves hstop hlive).trans hcwd)

/-- A stop of the task itself. -/
theorem step_stop {shares : Bool} {t : Nat} {stop : Stop} {view : TraceeView}
    (hp : F.CwdPossible setup r (.task shares (.report t (.stopped stop) view))) :
    F.CwdKept setup (F.cwdStep setup r (.task shares (.report t (.stopped stop) view))) := by
  obtain ⟨hnext, hpossible, hcwd⟩ := hp
  obtain ⟨q, hq⟩ := Option.isSome_iff_exists.mp hnext
  obtain ⟨p, hstop, rfl⟩ := Option.map_eq_some_iff.mp hq
  have hshape := Place.stopped_cases hstop
  have hspawn : ∀ c, TaskEvent.report t (.stopped stop) view ≠ .spawn c := by simp
  have hstep := cwdStep_event hspawn hq
  apply h.step_event hspawn hpossible hq (.inl rfl) hshape.forked hshape.returning
  · intro hlive hown
    have hdying : r.place t ≠ .dying := fun hd => hlive (hshape.dying hd)
    have hold := h.entry rfl hpossible.1 hdying hown
    obtain ⟨hprocs, hrestart⟩ := r.tracing.backend.handleReport_own_entry view (F.pid t) hpossible.2
    have heffect := cwdStep_effect hspawn hq
    have hlookup : (F.cwdStep setup r (.task shares (.report t (.stopped stop) view))).lookupDir t = r.dir t := by
      rw [lookupDir_eq fun regs ret before hr => ?_]
      · exact heffect.dir t
      · rw [hshape.returning regs ret before (heffect.place.symm.trans hr), heffect.dir]
    have hreported := (heffect.reported t).trans (or_iff_left fun hf => by cases hf)
    refine ⟨_, hprocs, fun hastray => ?_, ?_, fun hf => ?_⟩
    · rw [hlookup, hreported]
      exact h.cached_stop shares hold hpossible.1 hcwd hstop hlive hastray
    · rw [hreported]
      exact fun hnew => (PtraceBackend.handleOwnStop_ppid _ view (F.pid t) _ stop).trans (hold.parent hnew)
    · have hsynced := Synced.stopped (F.pid t) hf h.mode (hold.synced hf) hstop
      rw [heffect.place, hstep]
      simp only [nextRestart, Function.update_self, hrestart]
      exact hsynced
  · intro c hc
    exact absurd hc (by simp [TaskEvent.forked])

/-- A task that is gone. -/
theorem step_gone {shares : Bool} {e : TaskEvent} {t : Nat} (hspawn : ∀ c, e ≠ .spawn c) (hforked : e.forked = none)
    (hp : F.Possible r.tracing.world e) (hnext : F.nextPlace setup r (.task shares e) = some (t, .dying))
    (hreporter : e.reporter = some t ∨ e.reporter = none) : F.CwdKept setup (F.cwdStep setup r (.task shares e)) := by
  apply h.step_event hspawn hp hnext (hreporter.imp_right fun hr => ⟨hr, rfl⟩)
  · exact fun _ _ hf => by cases hf
  · exact fun _ _ _ hr => by cases hr
  · exact fun hd => absurd rfl hd
  · intro c hc
    exact absurd hc (by simp [hforked])

end CwdKept
end Family
end Bdtrace
