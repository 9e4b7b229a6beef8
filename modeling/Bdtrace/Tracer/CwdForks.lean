import Bdtrace.Tracer.CwdReports

/-! The cached working directories at fork events and at the start of a task, and so at every step of a run. -/
namespace Bdtrace
namespace Family
variable {F : Family} {setup : Setup}

theorem forking {r : CwdRun} {shares : Bool} {t c : Nat} {cwd cmdline : Str} {view : TraceeView}
    (hnext : (F.nextPlace setup r (.task shares (.forkEvent t c cwd cmdline view))).isSome) :
    ∃ regs, r.place t = .forked regs c ∧ F.nextPlace setup r (.task shares (.forkEvent t c cwd cmdline view)) =
      some (t, .returning regs (BitVec.ofInt 64 (F.pid c)) (r.dir t)) := by
  cases hplace : r.place t with
  | forked regs d =>
    simp only [nextPlace, hplace, Place.forkReported] at hnext ⊢
    split at hnext
    · rename_i hdc
      exact ⟨regs, hdc ▸ rfl, by rw [if_pos hdc]; rfl⟩
    · cases hnext
  | _ =>
    simp only [nextPlace, hplace] at hnext
    cases hnext

namespace CwdKept
variable {r : CwdRun} (h : F.CwdKept setup r)
include h

/-- The directory that a fork event hands to the child is the child's. -/
theorem fork_cwd {t c : Nat} {regs : Regs} {cwd cmdline : Str} {view : TraceeView} (hplace : r.place t = .forked regs c)
    (hp : F.Possible r.tracing.world (.forkEvent t c cwd cmdline view))
    (hcwd : c ∉ r.tracing.world.ended → cwd = r.dir c)
    (hlive : c ∉ r.tracing.world.ended) (hold : Holds setup r t (r.tracing.backend.entry (F.pid t))) (ht : t ∉ r.astray)
    (hc : c ∉ r.astray) :
    (if (r.tracing.backend.entry (F.pid t)).cachedCwd ≠ [] then
      (r.tracing.backend.entry (F.pid t)).cachedCwd else cwd) =
      r.dir c := by
  have hlookup : r.lookupDir t = r.dir t := lookupDir_eq (by simp [hplace])
  have hsame := (h.forked t regs c hplace hp.2.2.2.2).2 hp.2.2.2.1 hlive ht hc
  split
  · rename_i hne
    rw [(hold.cached ht).resolve_right fun hc => hne hc.1, hlookup, hsame]
  · exact hcwd hlive

/-- A task that is at a fork event has its own entry, unless it was mistaken before. -/
theorem forking_entry {t c : Nat} {regs : Regs} {cwd cmdline : Str} {view : TraceeView}
    (hplace : r.place t = .forked regs c)
    (hp : F.Possible r.tracing.world (.forkEvent t c cwd cmdline view)) (hown : t ∉ r.mistaken) :
    Holds setup r t (r.tracing.backend.entry (F.pid t)) := by
  have hknown := h.known (t := t) (by simp [hplace]) (by simp [hplace])
  obtain ⟨ps, hps, hholds⟩ := h.entries t hp.2.2.2.2 (by simp [hplace]) hknown hown
  simp only [PtraceBackend.entry, hps, Option.getD_some]
  exact hholds

omit h in
private theorem astray_forked {shares : Bool} {t c u : Nat} {cwd cmdline : Str} {view : TraceeView}
    (hu : u ∈ r.astray) :
    u ∈ strays setup r (.task shares (.forkEvent t c cwd cmdline view)) := by
  simp only [strays]
  split
  · exact Finset.mem_insert_of_mem hu
  · exact hu

omit h in
private theorem forked_astray {shares : Bool} {t c : Nat} {cwd cmdline : Str} {view : TraceeView}
    (hc : c ∉ strays setup r (.task shares (.forkEvent t c cwd cmdline view))) :
    t ∉ r.astray ∧ t ∉ r.mistaken ∧ c ∉ r.astray := by
  simp only [strays] at hc
  split at hc
  · exact absurd (Finset.mem_insert_self c _) hc
  · rename_i ht
    obtain ⟨ht, hm⟩ := not_or.mp (mt Finset.mem_union.mpr ht)
    exact ⟨ht, hm, hc⟩

/-- The entry that a fork event leaves to the child keeps in step with it. -/
private theorem synced_child {t c : Nat} {cwd cmdline : Str} {view : TraceeView} (cwd' cmdline' : Str)
    (hf : setup.follows)
    (hp : F.Possible r.tracing.world (.forkEvent t c cwd cmdline view)) (hlive : c ∉ r.tracing.world.ended)
    (hdying : r.place c ≠ .dying) (hown : c ∉ r.mistaken ∪ F.mistakes r (.forkEvent t c cwd cmdline view)) :
    Synced setup (r.restart c)
      (PtraceBackend.forkedEntry (r.tracing.backend.procs (F.pid c)) (F.pid t) (F.pid c) cwd' cmdline')
      (r.place c) := by
  obtain ⟨hown, hmistake⟩ := not_or.mp (mt Finset.mem_union.mpr hown)
  by_cases hseen : c ∈ r.seen
  · obtain ⟨ps, hps, hholds⟩ := h.entries c ⟨hp.2.2.1, hlive⟩ hdying (.inr hseen) hown
    rw [hps]
    simp only [PtraceBackend.forkedEntry, hholds.parent hp.2.2.2.1, ne_eq, not_true_eq_false, if_false]
    exact (hholds.synced hf).relabel _ _ _
  · rw [(h.unborn c hseen hp.1.ne').resolve_right hdying]
    cases hps : r.tracing.backend.procs (F.pid c) with
    | none => exact fun hphase => by cases hphase
    | some ps =>
      simp only [PtraceBackend.forkedEntry, forked_entry hmistake rfl hseen hps, ne_eq, not_false_eq_true, if_true]
      exact fun hphase => by cases hphase

private theorem step_fork {shares : Bool} {t c : Nat} {cwd cmdline : Str} {view : TraceeView}
    (hp : F.CwdPossible setup r (.task shares (.forkEvent t c cwd cmdline view))) :
    F.CwdKept setup (F.cwdStep setup r (.task shares (.forkEvent t c cwd cmdline view))) := by
  obtain ⟨hnext, hpossible, hcwd⟩ := hp
  obtain ⟨regs, hplace, hq⟩ := forking hnext
  have hspawn : ∀ d, TaskEvent.forkEvent t c cwd cmdline view ≠ .spawn d := by simp
  have hstep := cwdStep_event hspawn hq
  have heffect := cwdStep_effect hspawn hq
  have htc : c ≠ t := fun htc => by
    have hlt := F.parent_lt c hpossible.1
    rw [hpossible.2.1, htc] at hlt
    exact lt_irrefl t hlt
  have hne := h.sane.pid_ne hpossible
  obtain ⟨-, -, hself, -⟩ := r.tracing.backend.handleReport_fork view (F.pid t) (F.pid_range c).1.ne' hne cwd cmdline
  obtain ⟨cmdline', hchild, -⟩ := r.tracing.backend.handleReport_fork_child view (F.pid t)
    (F.pid_range c).1.ne' hne cwd cmdline
  apply h.step_event hspawn hpossible hq (.inl rfl)
  · exact fun _ _ hf => by cases hf
  · exact fun _ _ _ hr => (Place.returning.inj hr).2.2.symm
  · intro _ hown
    have hold := h.forking_entry hplace hpossible fun hm => hown (Finset.mem_union_left _ hm)
    refine ⟨_, hself,
      fun (hastray : t ∉ strays setup r (.task shares (.forkEvent t c cwd cmdline view))) => ?_, ?_, fun hf => ?_⟩
    · rw [lookupDir_eq fun regs' ret before hr => ?_, heffect.dir, heffect.reported]
      · rw [← lookupDir_eq
          (by simp [hplace] : ∀ regs ret before, r.place t = .returning regs ret before → before = r.dir t)]
        simpa [TaskEvent.forked, htc] using hold.cached fun hm => hastray (astray_forked hm)
      · rw [heffect.dir]
        exact (Place.returning.inj (heffect.place.symm.trans hr)).2.2.symm
    · rw [heffect.reported]
      exact fun hnew => hold.parent fun hm => hnew (.inl hm)
    · have hsynced := hold.synced hf
      rw [hplace] at hsynced
      rw [heffect.place, hstep]
      simp only [nextRestart, Function.update_self]
      have hresume := hsynced.2.resumed hf (Regs.movesDir_of_forks hsynced.1)
      rw [Setup.resumed, ← h.mode.1, ← h.mode.2] at hresume
      exact hresume
  · intro c' hc' hlive hdying hown
    obtain rfl : c = c' := Option.some.inj hc'
    refine ⟨_, hchild, fun hastray => .inl ?_, fun hm => absurd ((heffect.reported c).mpr (.inr rfl)) hm, fun hf => ?_⟩
    · have hastray : c ∉ strays setup r (.task shares (.forkEvent t c cwd cmdline view)) := hastray
      obtain ⟨ht, hm, hc⟩ := forked_astray hastray
      have hlookup : (F.cwdStep setup r (.task shares (.forkEvent t c cwd cmdline view))).lookupDir c = r.dir c := by
        rw [lookupDir_congr (heffect.other c htc) (heffect.dir c)]
        apply lookupDir_eq
        intro regs' ret before hr
        exact (h.moved c regs' ret before hr ⟨hpossible.2.2.1, hlive⟩ hc).resolve_right fun hm =>
          hpossible.2.2.2.1 hm.2.1
      rw [hlookup, PtraceBackend.forkedEntry_cachedCwd]
      exact h.fork_cwd hplace hpossible hcwd.2 hlive (h.forking_entry hplace hpossible hm) ht hc
    · rw [heffect.other c htc, heffect.restart c fun hc => htc (Option.some.inj hc).symm]
      exact h.synced_child _ _ hf hpossible hlive hdying hown

/-! ### A new task -/

/-- A new task starts in the directory of its parent, and the others keep theirs. -/
private theorem inherit_dir (shares : Bool) {c : Nat} (hnew : c ∉ r.tracing.world.spawned) :
    (∀ u ∈ r.tracing.world.spawned, (F.inherit r shares (.spawn c)).dir u = r.dir u) ∧
      (F.inherit r shares (.spawn c)).dir c = r.dir (F.parent c) := by
  cases shares with
  | true =>
    refine ⟨fun u hu => ?_, ?_⟩
    · have huc : u ≠ c := fun huc => hnew (huc ▸ hu)
      simp [inherit, CwdRun.dir, Function.update_of_ne huc]
    · simp [inherit, CwdRun.dir]
  | false =>
    refine ⟨fun u hu => ?_, ?_⟩
    · have huc : u ≠ c := fun huc => hnew (huc ▸ hu)
      have hgroup : r.fs u ≠ c := fun hgc => hnew (hgc ▸ h.groups u hu)
      simp [inherit, CwdRun.dir, Function.update_of_ne huc, Function.update_of_ne hgroup]
    · simp [inherit, CwdRun.dir]

omit h in
/-- A task is made by a parent that stands in a call which makes tasks, and that is forked from then on. -/
private theorem spawn_eq {shares : Bool} {c : Nat} (hp : F.CwdPossible setup r (.task shares (.spawn c))) :
    ∃ regs due, r.place (F.parent c) = .entering regs due ∧
      (r.place (F.parent c)).fork setup.seccompMode (r.restart (F.parent c)) c = some (.forked regs c) ∧
      F.cwdStep setup r (.task shares (.spawn c)) =
        { F.inherit r shares (.spawn c) with tracing := F.step r.tracing (.spawn c) }.placed
          (some (F.parent c, .forked regs c)) := by
  obtain ⟨q, hq⟩ := Option.isSome_iff_exists.mp hp.1
  obtain ⟨p, hfork, rfl⟩ := Option.map_eq_some_iff.mp hq
  have hmistakes : F.mistakes r (.spawn c) = ∅ := by simp [mistakes, TaskEvent.reporter, TaskEvent.forked]
  cases hplace : r.place (F.parent c) with
  | entering regs due =>
    have hforked := hfork
    simp only [hplace, Place.fork] at hforked
    split at hforked
    · obtain rfl := Option.some.inj hforked
      refine ⟨regs, due, rfl, hplace ▸ hfork, ?_⟩
      simp only [cwdStep, hq, hmistakes, strays, TaskEvent.reporter, nextRestart, Option.toFinset_none,
        Finset.union_empty]
      cases shares <;> rfl
    · cases hforked
  | _ =>
    rw [hplace] at hfork
    cases hfork

/-- The world has a new task, in the directory of its parent, that did nothing yet. -/
private theorem spawned (shares : Bool) {c : Nat} (hp : F.Possible r.tracing.world (.spawn c)) :
    F.CwdKept setup { F.inherit r shares (.spawn c) with tracing := F.step r.tracing (.spawn c) } := by
  have hsane := h.sane.step hp
  obtain ⟨hpos, hnew, hparent, -⟩ := hp
  obtain ⟨hdirs, hdirc⟩ := h.inherit_dir shares hnew
  have hborn : r.place c = .born ∨ r.place c = .dying := h.unborn c (fun hm => hnew (h.seen hm)) hpos.ne'
  have hfields : (F.inherit r shares (.spawn c)).place = r.place ∧ (F.inherit r shares (.spawn c)).seen = r.seen ∧
      (F.inherit r shares (.spawn c)).astray = r.astray ∧ (F.inherit r shares (.spawn c)).mistaken = r.mistaken ∧
      (F.inherit r shares (.spawn c)).restart = r.restart := by
    cases shares <;> exact ⟨rfl, rfl, rfl, rfl, rfl⟩
  obtain ⟨hplace, hseen, hastray, hmistaken, hrestart⟩ := hfields
  have hlive : ∀ {u}, (r.tracing.world.step (.spawn c)).Active u → r.place u ≠ .born → r.place u ≠ .dying →
      r.tracing.world.Active u := fun {u} hu hb hd =>
    ⟨(Finset.mem_insert.mp hu.1).resolve_left fun huc => by subst huc; exact hborn.elim hb hd, hu.2⟩
  refine ⟨⟨hsane, ?_, ?_, ?_, ?_, ?_⟩, h.mode, ?_⟩
  · exact hseen ▸ h.seen.trans (Finset.subset_insert _ _)
  · intro u hu
    show (F.inherit r shares (.spawn c)).fs u ∈ insert c r.tracing.world.spawned
    rcases Finset.mem_insert.mp hu with rfl | hu
    · cases shares with
      | true => simpa [inherit] using Or.inr (h.groups _ hparent.1)
      | false => simp [inherit]
    · have huc : u ≠ c := fun huc => hnew (huc ▸ hu)
      have hfs : (F.inherit r shares (.spawn c)).fs u = r.fs u := by
        cases shares <;> simp [inherit, Function.update_of_ne huc]
      rw [hfs]
      exact Finset.mem_insert_of_mem (h.groups u hu)
  · intro u hu hroot
    show (F.inherit r shares (.spawn c)).place u = .born ∨ (F.inherit r shares (.spawn c)).place u = .dying
    rw [hplace]
    exact h.unborn u (hseen ▸ hu) hroot
  · intro u regs d hu hactive
    have hu : r.place u = .forked regs d := hplace ▸ hu
    have hactive := hlive hactive (by simp [hu]) (by simp [hu])
    obtain ⟨hd, hsame⟩ := h.forked u regs d hu hactive
    refine ⟨Finset.mem_insert_of_mem hd, fun hnew' hend hua hda => ?_⟩
    show (F.inherit r shares (.spawn c)).dir d = (F.inherit r shares (.spawn c)).dir u
    rw [hdirs d hd, hdirs u hactive.1]
    exact hsame hnew' hend (hastray ▸ hua) (hastray ▸ hda)
  · intro u regs ret before hu hactive hua
    have hu : r.place u = .returning regs ret before := hplace ▸ hu
    have hactive := hlive hactive (by simp [hu]) (by simp [hu])
    show before = (F.inherit r shares (.spawn c)).dir u ∨ _
    rw [hdirs u hactive.1]
    exact h.moved u regs ret before hu hactive (hastray ▸ hua)
  · intro u hactive hdying hknown hown
    have hknown : u ∈ r.tracing.world.reported ∨ u ∈ r.seen := hseen ▸ hknown
    have hu : u ∈ r.tracing.world.spawned := hknown.elim (fun hm => h.sane.reported hm) fun hm => h.seen hm
    obtain ⟨ps, hps, hholds⟩ := h.entries u ⟨hu, hactive.2⟩ (hplace ▸ hdying) hknown (hmistaken ▸ hown)
    exact ⟨ps, hps, hholds.congr (fun hm => hastray ▸ hm) (congrFun hplace u) (fun _ => hdirs u hu)
      (congrFun hrestart u) Iff.rfl⟩

private theorem step_spawn {shares : Bool} {c : Nat} (hp : F.CwdPossible setup r (.task shares (.spawn c))) :
    F.CwdKept setup (F.cwdStep setup r (.task shares (.spawn c))) := by
  obtain ⟨regs, due, hplace, hfork, hstep⟩ := spawn_eq hp
  obtain ⟨hdirs, hdirc⟩ := h.inherit_dir shares hp.2.1.2.1
  have hspawned := h.spawned shares hp.2.1
  have hfields : (F.inherit r shares (.spawn c)).place = r.place ∧
      (F.inherit r shares (.spawn c)).restart = r.restart := by
    cases shares <;> exact ⟨rfl, rfl⟩
  rw [hstep]
  apply hspawned.step_inside
  · simp [hfields, hplace]
  · simp [hfields, hplace]
  · intro regs' d hd
    obtain ⟨rfl, rfl⟩ := Place.forked.inj hd
    refine ⟨Finset.mem_insert_self _ _, ?_⟩
    exact hdirc.trans (hdirs _ hp.2.1.2.2.1.1).symm
  · exact fun _ _ _ hr => by cases hr
  · intro hf ps hholds
    have hsynced := hholds.synced hf
    simp only [hfields] at hsynced ⊢
    exact hsynced.fork hf hfork
  · intro _ _ regs' ret before hr
    simp [hfields, hplace] at hr

theorem step {e : CwdEvent} (hp : F.CwdPossible setup r e) : F.CwdKept setup (F.cwdStep setup r e) := by
  cases e with
  | enter t regs => exact h.step_enter hp
  | leave t => exact h.step_leave hp
  | effect t o =>
    cases o with
    | moves dir => exact h.step_moves hp
    | returns ret => exact h.step_still hp (by simp)
    | execs => exact h.step_still hp (by simp)
  | task shares e =>
    cases e with
    | spawn c => exact h.step_spawn hp
    | forkEvent t c cwd cmdline view => exact h.step_fork hp
    | vanish t => exact h.step_gone (by simp) rfl hp.2.1 rfl (.inr rfl)
    | report t status view =>
      cases status with
      | stopped stop => exact h.step_stop hp
      | exited code => exact h.step_gone (by simp) rfl hp.2.1 rfl (.inl rfl)
      | signaled sig => exact h.step_gone (by simp) rfl hp.2.1 rfl (.inl rfl)

end CwdKept
end Family
end Bdtrace
