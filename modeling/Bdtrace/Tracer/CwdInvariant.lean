import Bdtrace.Tracer.CwdCache

/-! What holds of the cached working directories in every run, and the steps of a task inside the kernel. -/
namespace Bdtrace
namespace Family
variable (F : Family) (setup : Setup)

/-- What the entry of a task holds: its directory, unless the task is astray, or the cache is empty and the fork
event is to come. -/
structure Holds (r : CwdRun) (t : Nat) (ps : ProcessState) : Prop where
  cached : t ∉ r.astray → ps.cachedCwd = r.lookupDir t ∨ (ps.cachedCwd = [] ∧ t ∉ r.tracing.world.reported)
  parent : t ∉ r.tracing.world.reported → ps.ppid = 0
  synced : setup.follows → Synced setup (r.restart t) ps (r.place t)

/-- Where the tasks are and in which directories, as far as none of them is astray. -/
structure DirsKept (r : CwdRun) : Prop where
  sane : F.Sane r.tracing.world
  seen : r.seen ⊆ r.tracing.world.spawned
  groups : ∀ t ∈ r.tracing.world.spawned, r.fs t ∈ r.tracing.world.spawned
  unborn : ∀ t, t ∉ r.seen → t ≠ 0 → r.place t = .born ∨ r.place t = .dying
  forked : ∀ t regs c, r.place t = .forked regs c → r.tracing.world.Active t → c ∈ r.tracing.world.spawned ∧
    (c ∉ r.tracing.world.reported → c ∉ r.tracing.world.ended → t ∉ r.astray → c ∉ r.astray → r.dir c = r.dir t)
  moved : ∀ t regs ret before, r.place t = .returning regs ret before → r.tracing.world.Active t → t ∉ r.astray →
    before = r.dir t ∨
      (setup.follows ∧ t ∈ r.tracing.world.reported ∧ 0 ≤ ret.toInt ∧ regs.movesDir = true)

/-- The invariant of every run: the entries of the tasks that are not mistaken. -/
structure CwdKept (r : CwdRun) : Prop extends F.DirsKept setup r where
  mode : r.tracing.backend.procsOnly = setup.procsOnly ∧ r.tracing.backend.seccompMode = setup.seccompMode
  entries : ∀ t, r.tracing.world.Active t → r.place t ≠ .dying → t ∈ r.tracing.world.reported ∨ t ∈ r.seen →
    t ∉ r.mistaken → ∃ ps, r.tracing.backend.procs (F.pid t) = some ps ∧ Holds setup r t ps

variable {F setup}

theorem lookupDir_eq {r : CwdRun} {t : Nat}
    (h : ∀ regs ret before, r.place t = .returning regs ret before → before = r.dir t) :
    r.lookupDir t = r.dir t := by
  simp only [CwdRun.lookupDir]
  split
  · rename_i regs ret before hplace
    rw [h regs ret before hplace, ite_self]
  · rfl

theorem lookupDir_congr {r r' : CwdRun} {t : Nat} (hplace : r'.place t = r.place t) (hdir : r'.dir t = r.dir t) :
    r'.lookupDir t = r.lookupDir t := by
  simp only [CwdRun.lookupDir, hplace, hdir]

theorem Holds.congr {r r' : CwdRun} {t : Nat} {ps : ProcessState} (h : Holds setup r t ps)
    (hastray : t ∈ r.astray → t ∈ r'.astray) (hplace : r'.place t = r.place t)
    (hdir : t ∉ r'.astray → r'.dir t = r.dir t)
    (hrestart : r'.restart t = r.restart t) (hreported : t ∈ r'.tracing.world.reported ↔ t ∈ r.tracing.world.reported) :
    Holds setup r' t ps := by
  refine ⟨fun ht => ?_, ?_, fun hf => ?_⟩
  · rw [lookupDir_congr hplace (hdir ht), hreported]
    exact h.cached (mt hastray ht)
  · rw [hreported]
    exact h.parent
  · rw [hplace, hrestart]
    exact h.synced hf

/-- A task that was seen to do anything is known. -/
theorem DirsKept.known {r : CwdRun} (h : F.DirsKept setup r) {t : Nat} (hborn : r.place t ≠ .born)
    (hdying : r.place t ≠ .dying) : t ∈ r.tracing.world.reported ∨ t ∈ r.seen := by
  by_cases hseen : t ∈ r.seen
  · exact .inr hseen
  · by_cases hroot : t = 0
    · exact .inl (hroot ▸ h.sane.root.2)
    · exact absurd (h.unborn t hseen hroot) (by simp [hborn, hdying])

/-- A task goes from one place to another. -/
private theorem DirsKept.placed {r : CwdRun} (h : F.DirsKept setup r) {t : Nat} {p : Place} (hborn : r.place t ≠ .born)
    (hdying : r.place t ≠ .dying)
    (hforked : ∀ regs c, p = .forked regs c → c ∈ r.tracing.world.spawned ∧ r.dir c = r.dir t)
    (hmoved : ∀ regs ret before, p = .returning regs ret before → before = r.dir t) :
    F.DirsKept setup (r.placed (some (t, p))) := by
  have hother : ∀ u, u ≠ t → (r.placed (some (t, p))).place u = r.place u := fun u hu => Function.update_of_ne hu _ _
  have hself : (r.placed (some (t, p))).place t = p := Function.update_self ..
  refine ⟨h.sane, h.seen, h.groups, ?_, ?_, ?_⟩
  · intro u hu hroot
    by_cases hut : u = t
    · subst hut
      exact absurd (h.unborn u hu hroot) (by simp [hborn, hdying])
    · rw [hother u hut]
      exact h.unborn u hu hroot
  · intro u regs c hu
    by_cases hut : u = t
    · subst hut
      obtain ⟨hspawned, hsame⟩ := hforked regs c (hself.symm.trans hu)
      exact fun _ => ⟨hspawned, fun _ _ _ _ => hsame⟩
    · rw [hother u hut] at hu
      exact h.forked u regs c hu
  · intro u regs ret before hu hactive hastray
    by_cases hut : u = t
    · subst hut
      exact .inl (hmoved regs ret before (hself.symm.trans hu))
    · rw [hother u hut] at hu
      exact h.moved u regs ret before hu hactive hastray

namespace CwdKept
variable {r : CwdRun} (h : F.CwdKept setup r)
include h

/-- A step of one task inside the kernel that changes no directory. -/
theorem step_inside {t : Nat} {p : Place} (hborn : r.place t ≠ .born) (hdying : r.place t ≠ .dying)
    (hforked : ∀ regs c, p = .forked regs c → c ∈ r.tracing.world.spawned ∧ r.dir c = r.dir t)
    (hmoved : ∀ regs ret before, p = .returning regs ret before → before = r.dir t)
    (hsynced : setup.follows → ∀ ps, Holds setup r t ps → Synced setup (r.restart t) ps p)
    (hplace : t ∉ r.astray → t ∉ r.mistaken → ∀ regs ret before, r.place t = .returning regs ret before →
      before = r.dir t) :
    F.CwdKept setup (r.placed (some (t, p))) := by
  have hother : ∀ u, u ≠ t → (r.placed (some (t, p))).place u = r.place u := fun u hu => Function.update_of_ne hu _ _
  have hself : (r.placed (some (t, p))).place t = p := Function.update_self ..
  refine ⟨h.toDirsKept.placed hborn hdying hforked hmoved, h.mode, ?_⟩
  intro u hu hlive hknown hown
  by_cases hut : u = t
  · subst hut
    obtain ⟨ps, hps, hholds⟩ := h.entries u hu hdying hknown hown
    refine ⟨ps, hps, fun hastray => ?_, hholds.parent, fun hf => ?_⟩
    · have hdir : (r.placed (some (u, p))).lookupDir u = r.dir u :=
        lookupDir_eq fun regs ret before hp => hmoved regs ret before (hself.symm.trans hp)
      rw [hdir, ← lookupDir_eq (hplace hastray hown)]
      exact hholds.cached hastray
    · rw [hself]
      exact hsynced hf ps hholds
  · rw [hother u hut] at hlive
    obtain ⟨ps, hps, hholds⟩ := h.entries u hu hlive hknown hown
    exact ⟨ps, hps, hholds.congr (fun hm => hm) (hother u hut) (fun _ => rfl) rfl Iff.rfl⟩

theorem step_enter {t : Nat} {regs : Regs} (hp : F.CwdPossible setup r (.enter t regs)) :
    F.CwdKept setup (F.cwdStep setup r (.enter t regs)) := by
  obtain ⟨q, hq⟩ := Option.isSome_iff_exists.mp hp.1
  obtain ⟨p, henter, rfl⟩ := Option.map_eq_some_iff.mp hq
  have hstep : F.cwdStep setup r (.enter t regs) = r.placed (some (t, p)) := by
    rw [← hq]
    rfl
  have hentering : p = .entering regs setup.order.stops := by
    simp only [Place.enter] at henter
    split at henter
    · exact (Option.some.inj henter).symm
    · exact (Option.some.inj henter).symm
    · cases henter
  subst hentering
  rw [hstep]
  apply h.step_inside
  · intro hb
    rw [hb] at henter
    cases henter
  · intro hd
    rw [hd] at henter
    cases henter
  · exact fun _ _ hf => by cases hf
  · exact fun _ _ _ hr => by cases hr
  · exact fun hf ps hholds => (hholds.synced hf).enter henter
  · intro _ _ regs' ret before hr
    rw [hr] at henter
    cases henter

/-- The exit stop of a call that moves the task is not left out. -/
private theorem not_left {t : Nat} {regs : Regs} {ret : BitVec 64} {before : Str}
    (hplace : r.place t = .returning regs ret before)
    (hactive : r.tracing.world.Active t) (hcont : r.restart t = .cont) (hastray : t ∉ r.astray)
    (hown : t ∉ r.mistaken) :
    before = r.dir t := by
  refine (h.moved t _ _ _ hplace hactive hastray).resolve_right fun hm => ?_
  obtain ⟨ps, -, hholds⟩ := h.entries t hactive (by simp [hplace]) (h.known (by simp [hplace]) (by simp [hplace])) hown
  have hsynced := hholds.synced hm.1
  rw [hplace] at hsynced
  cases hcont.symm.trans (hsynced.moves hm.2.2.2)

theorem step_leave {t : Nat} (hp : F.CwdPossible setup r (.leave t)) :
    F.CwdKept setup (F.cwdStep setup r (.leave t)) := by
  obtain ⟨hnext, hactive⟩ := hp
  obtain ⟨q, hq⟩ := Option.isSome_iff_exists.mp hnext
  obtain ⟨p, hleave, rfl⟩ := Option.map_eq_some_iff.mp hq
  have hstep : F.cwdStep setup r (.leave t) = r.placed (some (t, p)) := by
    rw [← hq]
    rfl
  rw [hstep]
  cases hplace : r.place t with
  | returning regs ret before =>
    rw [hplace] at hleave
    have hcont : r.restart t = .cont := by
      by_contra hne
      simp [Place.leave, hne] at hleave
    have huser : p = .user := by
      simp only [Place.leave, hcont, if_true] at hleave
      exact (Option.some.inj hleave).symm
    subst huser
    apply h.step_inside
    · simp [hplace]
    · simp [hplace]
    · exact fun _ _ hf => by cases hf
    · exact fun _ _ _ hr => by cases hr
    · intro hf ps hholds
      have hsynced := hholds.synced hf
      rw [hplace] at hsynced
      exact hsynced.leave hleave
    · intro hastray hown regs' ret' before' hr
      exact h.not_left hr hactive hcont hastray hown
  | _ =>
    rw [hplace] at hleave
    cases hleave

omit h in
/-- What a call does: it returns in the directory of the task, or it replaces the image. -/
private theorem effect_cases {t : Nat} {o : Outcome} {p : Place}
    (heffect : (r.place t).effect setup.seccompMode (r.restart t) (r.dir t) o = some p) :
    (∃ regs due, r.place t = .entering regs due) ∧
      ((∃ regs ret, p = .returning regs ret (r.dir t) ∧ ∀ dir, o = .moves dir → ret = 0 ∧ regs.movesDir = true) ∨
        ∃ regs, p = .execed regs ∧ ∀ dir, o ≠ .moves dir) := by
  cases hplace : r.place t with
  | entering regs due =>
    refine ⟨⟨regs, due, rfl⟩, ?_⟩
    rw [hplace] at heffect
    simp only [Place.effect] at heffect
    split at heffect
    · cases heffect
    · cases o with
      | returns ret => exact .inl ⟨regs, ret, (Option.some.inj heffect).symm, by simp⟩
      | moves dir =>
        simp only at heffect
        split at heffect
        · rename_i hmoves
          exact .inl ⟨regs, 0, (Option.some.inj heffect).symm, fun _ _ => ⟨rfl, hmoves⟩⟩
        · cases heffect
      | execs =>
        simp only at heffect
        split at heffect
        · exact .inr ⟨regs, (Option.some.inj heffect).symm, by simp⟩
        · cases heffect
  | _ =>
    rw [hplace] at heffect
    cases heffect

/-- A call takes effect, apart from the directory that it moves the task to. -/
private theorem step_call {t : Nat} {o : Outcome} {p : Place}
    (heffect : (r.place t).effect setup.seccompMode (r.restart t) (r.dir t) o = some p) :
    F.CwdKept setup (r.placed (some (t, p))) := by
  obtain ⟨⟨regs, due, hplace⟩, hcases⟩ := effect_cases heffect
  apply h.step_inside
  · simp [hplace]
  · simp [hplace]
  · rintro regs' c rfl
    obtain ⟨_, _, hr, -⟩ | ⟨_, hr, -⟩ := hcases
    all_goals cases hr
  · rintro regs' ret' before rfl
    obtain ⟨_, _, hr, -⟩ | ⟨_, hr, -⟩ := hcases
    · exact (Place.returning.inj hr).2.2
    · cases hr
  · exact fun hf ps hholds => (hholds.synced hf).effect hf heffect
  · simp [hplace]

theorem step_still {t : Nat} {o : Outcome} (hp : F.CwdPossible setup r (.effect t o)) (ho : ∀ dir, o ≠ .moves dir) :
    F.CwdKept setup (F.cwdStep setup r (.effect t o)) := by
  obtain ⟨q, hq⟩ := Option.isSome_iff_exists.mp hp.1
  obtain ⟨p, heffect, rfl⟩ := Option.map_eq_some_iff.mp hq
  have hstep : F.cwdStep setup r (.effect t o) = r.placed (some (t, p)) := by
    rw [← hq]
    cases o with
    | moves dir => exact absurd rfl (ho dir)
    | _ => rfl
  rw [hstep]
  exact h.step_call heffect

omit h in
private theorem astray_relocated {t u : Nat} {dir : Str} (hu : u ∉ (relocated setup r t dir).astray) : u ∉ r.astray :=
  fun hm => hu (Finset.mem_union_left _ hm)

omit h in
private theorem notices_relocated {t u : Nat} {dir : Str} (hu : u ∉ (relocated setup r t dir).astray)
    (hspawned : u ∈ r.tracing.world.spawned) (hfs : r.fs u = r.fs t) : notices setup r t u := by
  by_contra hno
  exact hu (Finset.mem_union_right _ (Finset.mem_filter.mpr ⟨hspawned, hfs, hno⟩))

omit h in
private theorem dir_relocated {t u : Nat} {dir : Str} (hu : u ∉ (relocated setup r t dir).astray)
    (hspawned : u ∈ r.tracing.world.spawned) (hut : u ≠ t) : (relocated setup r t dir).dir u = r.dir u :=
  Function.update_of_ne (fun hfs => hut (notices_relocated hu hspawned hfs).1) _ _

/-- The directory of a task that is past a chdir or fchdir changes, for all that share it. -/
private theorem relocate {t : Nat} {regs : Regs} {ret : BitVec 64} (dir : Str) (hactive : r.tracing.world.Active t)
    (hplace : r.place t = .returning regs ret (r.dir t)) (hret : 0 ≤ ret.toInt) (hmoves : regs.movesDir = true) :
    F.CwdKept setup (relocated setup r t dir) := by
  refine ⟨⟨h.sane, h.seen, h.groups, h.unborn, ?_, ?_⟩, h.mode, ?_⟩
  · intro u regs' c hu hactive'
    obtain ⟨hspawned, hsame⟩ := h.forked u regs' c hu hactive'
    refine ⟨hspawned, fun hnew hlive hua hca => ?_⟩
    have hut : u ≠ t := fun hut => by
      subst hut
      cases hplace.symm.trans hu
    have hct : c ≠ t := fun hct => by
      subst hct
      exact hnew (notices_relocated hca hspawned rfl).2.2
    rw [dir_relocated hca hspawned hct, dir_relocated hua hactive'.1 hut]
    exact hsame hnew hlive (astray_relocated hua) (astray_relocated hca)
  · intro u regs' ret' before hu hactive' hua
    by_cases hut : u = t
    · subst hut
      obtain ⟨rfl, rfl, rfl⟩ := Place.returning.inj (hplace.symm.trans hu)
      obtain ⟨-, hf, hreported⟩ := notices_relocated hua hactive'.1 rfl
      exact .inr ⟨hf, hreported, hret, hmoves⟩
    · rw [dir_relocated hua hactive'.1 hut]
      exact h.moved u regs' ret' before hu hactive' (astray_relocated hua)
  · intro u hu hlive hknown hown
    obtain ⟨ps, hps, hholds⟩ := h.entries u hu hlive hknown hown
    by_cases hut : u = t
    · subst hut
      have hlookup : (relocated setup r u dir).lookupDir u = r.lookupDir u := by
        simp [CwdRun.lookupDir, relocated, hplace, hmoves]
      refine ⟨ps, hps, fun hua => ?_, hholds.parent, hholds.synced⟩
      rw [hlookup]
      exact hholds.cached (astray_relocated hua)
    · exact ⟨ps, hps, hholds.congr (Finset.mem_union_left _) rfl (fun hua => dir_relocated hua hu.1 hut) rfl Iff.rfl⟩

theorem step_moves {t : Nat} {dir : Str} (hp : F.CwdPossible setup r (.effect t (.moves dir))) :
    F.CwdKept setup (F.cwdStep setup r (.effect t (.moves dir))) := by
  obtain ⟨hnext, hactive⟩ := hp
  obtain ⟨q, hq⟩ := Option.isSome_iff_exists.mp hnext
  obtain ⟨p, heffect, rfl⟩ := Option.map_eq_some_iff.mp hq
  have hstep : F.cwdStep setup r (.effect t (.moves dir)) = relocated setup (r.placed (some (t, p))) t dir := by
    rw [← hq]
    rfl
  rw [hstep]
  obtain ⟨-, ⟨regs, ret, rfl, hmoves⟩ | ⟨regs, rfl, hno⟩⟩ := effect_cases heffect
  · obtain ⟨rfl, hmove⟩ := hmoves dir rfl
    have hself : (r.placed (some (t, .returning regs 0 (r.dir t)))).place t = .returning regs 0 (r.dir t) :=
      Function.update_self ..
    exact (h.step_call heffect).relocate dir hactive hself (by decide) hmove
  · exact absurd rfl (hno dir)

end CwdKept
end Family
end Bdtrace
