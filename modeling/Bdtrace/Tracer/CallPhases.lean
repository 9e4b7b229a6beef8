import Bdtrace.Tracer.WorkingDirectories

/-! The phase that the tracer keeps for a task goes with the place of the task: it inspects the exit of
each call that it needs. -/
namespace Bdtrace

def Setup.resumed (setup : Setup) : Restart := resumeRequest setup.procsOnly setup.seccompMode

def Regs.needed (regs : Regs) : Bool := (decodeSyscallEntry {} regs regs.origRax).exitNeeded

private theorem Setup.resumed_classic {setup : Setup} (hf : setup.follows) (hmode : setup.seccompMode = false) :
    setup.resumed = .syscall := by
  simp [Setup.resumed, resumeRequest, hf.1, hmode]

private theorem Setup.resumed_seccomp {setup : Setup} (hmode : setup.seccompMode = true) : setup.resumed = .cont := by
  simp [Setup.resumed, resumeRequest, hmode]

/-- The next syscall stop is not skipped. -/
def Ready (ps : ProcessState) : Prop := ps.scPhase = .exitNext → ps.exitNeeded = true

/-- The next syscall stop is taken for the exit of the call. -/
structure Armed (regs : Regs) (ps : ProcessState) : Prop where
  phase : ps.scPhase = .exitNext
  saved : ps.exitNeeded = true → regs.needed = true ∧ ps.pendingSyscall = regs.origRax ∧
    ps.pendingPathAddr = (entryArgs regs regs.origRax).1
  moves : regs.movesDir = true → ps.exitNeeded = true

/-- Before a call. -/
def Idle (setup : Setup) (restart : Restart) (ps : ProcessState) : Prop :=
  restart = setup.resumed ∧ (setup.seccompMode = false → Ready ps)

/-- After the entry stops of a call. -/
structure Inside (setup : Setup) (regs : Regs) (restart : Restart) (ps : ProcessState) : Prop where
  armed : restart = .syscall → Armed regs ps
  moves : regs.movesDir = true → restart = .syscall
  classic : setup.seccompMode = false → restart = .syscall

def Synced (setup : Setup) (restart : Restart) (ps : ProcessState) : Place → Prop
  | .born => Ready ps
  | .cloned | .user => Idle setup restart ps
  | .entering regs due => (due = setup.order.stops ∧ Idle setup restart ps) ∨
      ((∀ restart, dueStops setup.seccompMode restart regs due = []) ∧ Inside setup regs restart ps)
  | .forked regs _ => regs.forks = true ∧ Inside setup regs restart ps
  | .execed regs => regs.execs = true ∧ Inside setup regs restart ps
  | .returning regs _ _ => Inside setup regs restart ps
  | .dying => True

/-- What the tracer saves at the entry of a call that can move the task. -/
theorem Regs.movesDir_saved {regs : Regs} (h : regs.movesDir = true) :
    regs.origRax = sysChdir ∧ (entryArgs regs regs.origRax).1 ≠ 0 ∨ regs.origRax = sysFchdir := by
  simp only [Regs.movesDir, Bool.or_eq_true, decide_eq_true_eq] at h
  rcases h with ⟨hsc, hrdi⟩ | hsc
  · have hargs : (entryArgs regs regs.origRax).1 = regs.rdi := by
      simp only [entryArgs, hsc]
      rfl
    exact .inl ⟨hsc, hargs ▸ hrdi⟩
  · exact .inr hsc

private theorem Regs.needed_of_movesDir {regs : Regs} (h : regs.movesDir = true) : regs.needed = true := by
  simp only [Regs.needed, decodeSyscallEntry, Bool.or_eq_true, decide_eq_true_eq]
  exact (Regs.movesDir_saved h).imp_left And.right

theorem Regs.movesDir_of_forks {regs : Regs} (h : regs.forks = true) : regs.movesDir = false := by
  simp only [Regs.forks, decide_eq_true_eq, List.mem_cons, List.not_mem_nil, or_false] at h
  rcases h with h | h | h | h
  all_goals simp [Regs.movesDir, h, sysChdir, sysFchdir]

private theorem Regs.movesDir_of_execs {regs : Regs} (h : regs.execs = true) : regs.movesDir = false := by
  simp only [Regs.execs, Bool.or_eq_true, decide_eq_true_eq] at h
  rcases h with h | h
  all_goals simp [Regs.movesDir, h, sysChdir, sysFchdir, sysExecve, sysExecveat]

section
variable {setup : Setup} {restart : Restart} {ps : ProcessState}

theorem Synced.enter {p p' : Place} {regs : Regs} (h : Synced setup restart ps p)
    (hp : p.enter setup.order regs = some p') : Synced setup restart ps p' := by
  cases p with
  | user =>
    obtain rfl := Option.some.inj hp
    exact .inl ⟨rfl, h⟩
  | cloned =>
    obtain rfl := Option.some.inj hp
    exact .inl ⟨rfl, h⟩
  | _ => cases hp

/-- A call whose entry stops are over has the entry that its exit stop needs. -/
private theorem inside_of_due (hf : setup.follows) {regs : Regs} {due : List EntryStop}
    (h : Synced setup restart ps (.entering regs due)) (hdue : dueStops setup.seccompMode restart regs due = []) :
    Inside setup regs restart ps := by
  rcases h with ⟨rfl, hrestart, -⟩ | ⟨-, h⟩
  · cases hmode : setup.seccompMode with
    | false =>
      have hsyscall : restart = .syscall := by simp [hrestart, Setup.resumed, resumeRequest, hf.1, hmode]
      cases horder : setup.order with
      | entryFirst => simp [horder, StopOrder.stops, dueStops, hsyscall] at hdue
      | filterFirst => simp [horder, StopOrder.stops, dueStops, hsyscall, hmode] at hdue
    | true =>
      have hcont : restart = .cont := by simp [hrestart, Setup.resumed, resumeRequest, hf.1, hmode]
      have htrap : regs.trapped = false := by
        simpa [hf.2 hmode, StopOrder.stops, dueStops, hcont, hmode] using hdue
      refine ⟨fun hs => ?_, fun hm => ?_, fun hm => (by cases hm.symm.trans hmode)⟩
      · cases hcont.symm.trans hs
      · rw [trapped_of_exitNeeded (Regs.needed_of_movesDir hm)] at htrap
        cases htrap
  · exact h

theorem Synced.effect (hf : setup.follows) {p p' : Place} {dir : Str} {o : Outcome} (h : Synced setup restart ps p)
    (hp : p.effect setup.seccompMode restart dir o = some p') : Synced setup restart ps p' := by
  cases p with
  | entering regs due =>
    simp only [Place.effect] at hp
    split at hp
    · cases hp
    · rename_i hdue
      have hinside := inside_of_due hf h (not_not.mp hdue)
      cases o with
      | returns ret =>
        obtain rfl := Option.some.inj hp
        exact hinside
      | moves d =>
        simp only at hp
        split at hp
        · obtain rfl := Option.some.inj hp
          exact hinside
        · cases hp
      | execs =>
        simp only at hp
        split at hp
        · rename_i hexecs
          obtain rfl := Option.some.inj hp
          exact ⟨hexecs, hinside⟩
        · cases hp
  | _ => cases hp

theorem Synced.fork (hf : setup.follows) {p p' : Place} {c : Nat} (h : Synced setup restart ps p)
    (hp : p.fork setup.seccompMode restart c = some p') : Synced setup restart ps p' := by
  cases p with
  | entering regs due =>
    simp only [Place.fork] at hp
    split at hp
    · rename_i hdue
      obtain rfl := Option.some.inj hp
      exact ⟨hdue.2, inside_of_due hf h hdue.1⟩
    · cases hp
  | _ => cases hp

theorem Synced.leave {p p' : Place} (h : Synced setup restart ps p) (hp : p.leave restart = some p') :
    Synced setup restart ps p' := by
  cases p with
  | returning regs ret before =>
    simp only [Place.leave] at hp
    split at hp
    · rename_i hcont
      obtain rfl := Option.some.inj hp
      cases hmode : setup.seccompMode with
      | false => cases hcont.symm.trans (h.classic hmode)
      | true =>
        refine ⟨?_, fun hm => (by cases hm.symm.trans hmode)⟩
        simp [hcont, Setup.resumed, resumeRequest, hmode]
    · cases hp
  | _ => cases hp

/-- A fork or exec event inside the call. -/
theorem Inside.resumed (hf : setup.follows) {regs : Regs} (hmoves : regs.movesDir = false)
    (h : Inside setup regs restart ps) : Inside setup regs setup.resumed ps := by
  refine ⟨fun hs => ?_, fun hm => (by cases hm.symm.trans hmoves), fun hmode => Setup.resumed_classic hf hmode⟩
  cases hmode : setup.seccompMode with
  | true => cases (Setup.resumed_seccomp hmode).symm.trans hs
  | false => exact h.armed (h.classic hmode)

/-- Only the phase and what was saved at the entry matter. -/
theorem Synced.relabel {p : Place} (h : Synced setup restart ps p) (ppid : Int) (cwd cmdline : Str) :
    Synced setup restart { ps with ppid := ppid, cachedCwd := cwd, cachedCmdline := cmdline } p := by
  have harmed : ∀ {regs}, Inside setup regs restart ps →
      Inside setup regs restart { ps with ppid := ppid, cachedCwd := cwd, cachedCmdline := cmdline } :=
    fun hi => ⟨fun hs => ⟨(hi.armed hs).phase, (hi.armed hs).saved, (hi.armed hs).moves⟩, hi.moves, hi.classic⟩
  cases p with
  | entering regs due => exact h.imp_right fun hi => ⟨hi.1, harmed hi.2⟩
  | forked regs c => exact ⟨h.1, harmed h.2⟩
  | execed regs => exact ⟨h.1, harmed h.2⟩
  | returning regs ret before => exact harmed h
  | _ => exact h

/-! ### The stops of the task itself -/

private theorem showing_some {seen : Option Regs} {shows : Regs → Bool} {p p' : Place}
    (h : Place.showing seen shows p = some p') :
    p' = .dying ∨ ∃ regs, seen = some regs ∧ shows regs = true ∧ p' = p := by
  cases seen with
  | none => exact .inl (Option.some.inj h).symm
  | some regs =>
    simp only [Place.showing] at h
    split at h
    · exact .inr ⟨regs, rfl, by assumption, (Option.some.inj h).symm⟩
    · cases h

/-- The exit stop of a call. -/
private theorem ready_exit {view : TraceeView} {pid : Int} {regs : Regs} {ret : BitVec 64} (h : Armed regs ps)
    (hregs : view.regs = some { regs with rax := ret }) : Ready (handleSyscallStop view pid ps).1 := by
  cases hneed : ps.exitNeeded with
  | false =>
    rw [handleSyscallStop_skipped pid h.phase hneed]
    exact fun hp => by cases hp
  | true =>
    by_cases hret : ret.toInt = -enosys
    · -- it is taken for the entry of the same call
      rw [handleSyscallStop_entry pid hregs hret fun _ => hneed]
      exact fun _ => (h.saved hneed).1
    · rw [handleSyscallStop_exit pid hregs hret fun _ => hneed]
      intro hphase
      rw [(recordExit_records view pid { ps with scPhase := .entryNext } _).frame] at hphase
      cases hphase

private theorem armed_entry {view : TraceeView} {pid : Int} {regs : Regs} (h : Ready ps)
    (hregs : view.regs = some regs.atEntry) : Armed regs (handleSyscallStop view pid ps).1 := by
  rw [handleSyscallStop_entry pid hregs regs.atEntry_rax h]
  exact ⟨rfl, fun hneed => ⟨hneed, rfl, rfl⟩, fun hm => Regs.needed_of_movesDir hm⟩

private theorem idle_signal {b : PtraceBackend} (hb : b.procsOnly = setup.procsOnly ∧ b.seccompMode = setup.seccompMode)
    {view : TraceeView} {pid sig : Int} (h : setup.seccompMode = false → Ready ps) :
    Idle setup (((b.handleOwnStop view pid ps (.signal sig)).2.map (·.1)).getD .cont)
      (b.handleOwnStop view pid ps (.signal sig)).1.1 := by
  simp only [PtraceBackend.handleOwnStop]
  split
  all_goals exact ⟨by simp [PtraceBackend.resume, Setup.resumed, hb], h⟩

private theorem synced_syscall (hf : setup.follows) {view : TraceeView} {pid : Int} {p p' : Place} {dir : Str}
    (h : Synced setup restart ps p) (hp : p.stopped setup.seccompMode restart dir view.regs .syscall = some p') :
    Synced setup setup.resumed (handleSyscallStop view pid ps).1 p' := by
  cases p with
  | cloned =>
    simp only [Place.stopped] at hp
    split at hp
    · obtain rfl | ⟨regs, hregs, hrax, rfl⟩ := showing_some hp
      · trivial
      · refine ⟨rfl, fun hmode => ?_⟩
        have hzero : regs.rax.toInt ≠ -enosys := by
          rw [of_decide_eq_true hrax]
          decide
        rw [handleSyscallStop_exit pid hregs hzero (h.2 hmode)]
        intro hphase
        rw [(recordExit_records view pid { ps with scPhase := .entryNext } _).frame] at hphase
        cases hphase
    · cases hp
  | entering regs due =>
    simp only [Place.stopped] at hp
    split at hp
    · rename_i rest hdue
      obtain rfl | ⟨regs', hregs, hshow, rfl⟩ := showing_some hp
      · trivial
      · obtain rfl := of_decide_eq_true hshow
        rcases h with ⟨rfl, hrestart, hready⟩ | ⟨hnone, -⟩
        · cases hmode : setup.seccompMode with
          | true =>
            have hcont := hrestart.trans (Setup.resumed_seccomp hmode)
            simp only [hf.2 hmode, StopOrder.stops, dueStops, hcont, hmode, reduceCtorEq, if_false,
              Bool.true_and] at hdue
            split at hdue
            all_goals cases hdue
          | false =>
            have hsyscall : restart = .syscall := hrestart.trans (Setup.resumed_classic hf hmode)
            have hrest : rest = [] ∨ rest = [.seccomp] := by
              cases horder : setup.order with
              | entryFirst => simp_all [StopOrder.stops, dueStops]
              | filterFirst => simp_all [StopOrder.stops, dueStops]
            refine .inr ⟨fun _ => ?_, fun _ => armed_entry (hready hmode) hregs, fun _ => ?_, fun _ => ?_⟩
            · rcases hrest with rfl | rfl <;> simp [dueStops, hmode]
            · exact Setup.resumed_classic hf hmode
            · exact Setup.resumed_classic hf hmode
        · rw [hnone restart] at hdue
          cases hdue
    · cases hp
  | returning regs ret before =>
    simp only [Place.stopped] at hp
    split at hp
    · rename_i hsyscall
      obtain rfl | ⟨regs', hregs, hshow, rfl⟩ := showing_some hp
      · trivial
      · obtain rfl := of_decide_eq_true hshow
        exact ⟨rfl, fun _ => ready_exit (h.armed hsyscall) hregs⟩
    · cases hp
  | _ => cases hp

private theorem synced_seccomp (hf : setup.follows) {view : TraceeView} {p p' : Place} {dir : Str}
    (h : Synced setup restart ps p) (hp : p.stopped setup.seccompMode restart dir view.regs .seccomp = some p') :
    Synced setup (handleSeccompStop view ps).2 (handleSeccompStop view ps).1 p' := by
  cases p with
  | entering regs due =>
    simp only [Place.stopped] at hp
    split at hp
    · rename_i rest hdue
      obtain rfl | ⟨regs', hregs, hshow, rfl⟩ := showing_some hp
      · trivial
      · obtain rfl := of_decide_eq_true hshow
        rcases h with ⟨rfl, hrestart, -⟩ | ⟨hnone, -⟩
        · cases hmode : setup.seccompMode with
          | false =>
            cases horder : setup.order with
            | entryFirst => simp_all [StopOrder.stops, dueStops, Setup.resumed_classic hf hmode]
            | filterFirst => simp_all [StopOrder.stops, dueStops, Setup.resumed_classic hf hmode]
          | true =>
            have hrest : rest = [] := by
              have hcont := hrestart.trans (Setup.resumed_seccomp hmode)
              simp only [hf.2 hmode, StopOrder.stops, dueStops, hcont, hmode, reduceCtorEq, if_false,
                Bool.true_and] at hdue
              split at hdue
              · exact (List.cons.inj hdue).2.symm
              · cases hdue
            subst hrest
            refine .inr ⟨fun _ => rfl, ?_, ?_, fun hm => (by cases hm.symm.trans hmode)⟩
            · cases hneed : regs.needed with
              | true =>
                rw [handleSeccompStop_needed hregs hneed]
                exact fun _ => ⟨rfl, fun _ => ⟨hneed, rfl, rfl⟩, fun _ => hneed⟩
              | false =>
                rw [handleSeccompStop_free hregs hneed]
                exact fun hs => by cases hs
            · intro hm
              rw [handleSeccompStop_needed hregs (Regs.needed_of_movesDir hm)]
        · rw [hnone restart] at hdue
          cases hdue
    · cases hp
  | _ => cases hp

theorem Synced.stopped (pid : Int) (hf : setup.follows) {b : PtraceBackend}
    (hb : b.procsOnly = setup.procsOnly ∧ b.seccompMode = setup.seccompMode) {view : TraceeView} {stop : Stop}
    {p p' : Place} {dir : Str} (h : Synced setup restart ps p)
    (hp : p.stopped setup.seccompMode restart dir view.regs stop = some p') :
    Synced setup (((b.handleOwnStop view pid ps stop).2.map (·.1)).getD .cont)
      (b.handleOwnStop view pid ps stop).1.1 p' := by
  have hresumed : ∀ sig, ((b.resume sig).map (·.1)).getD .cont = setup.resumed := fun sig => by
    simp [PtraceBackend.resume, Setup.resumed, hb]
  cases stop with
  | syscall =>
    simp only [PtraceBackend.handleOwnStop, hresumed]
    exact synced_syscall hf h hp
  | seccomp => exact synced_seccomp hf h hp
  | exit usage =>
    obtain rfl : .dying = p' := Option.some.inj (by simpa [Place.stopped] using hp)
    trivial
  | fork child cwd cmdline => cases hp
  | exec =>
    cases p with
    | execed regs =>
      obtain rfl := Option.some.inj hp
      obtain ⟨hexecs, hinside⟩ := h
      have hmoves := Regs.movesDir_of_execs hexecs
      simp only [PtraceBackend.handleOwnStop, hresumed]
      have hresume := hinside.resumed hf hmoves
      refine ⟨fun hs => ⟨(hresume.armed hs).phase, fun hneed => (by cases hneed), fun hm => ?_⟩,
        hresume.moves, hresume.classic⟩
      cases hm.symm.trans hmoves
    | _ => cases hp
  | sigtrap =>
    cases p with
    | user =>
      obtain rfl := Option.some.inj hp
      exact ⟨hresumed 0, h.2⟩
    | _ => cases hp
  | signal sig =>
    cases p with
    | born =>
      obtain rfl := Option.some.inj hp
      exact idle_signal hb fun _ => h
    | cloned =>
      obtain rfl := Option.some.inj hp
      exact idle_signal hb h.2
    | user =>
      obtain rfl := Option.some.inj hp
      exact idle_signal hb h.2
    | _ => cases hp

/-- Where a stop leaves a task. -/
structure Place.AfterStop (p : Place) (restart : Restart) (dir : Str) (seen : Option Regs) (stop : Stop) (p' : Place) :
    Prop where
  dying : p = .dying → p' = .dying
  forked : ∀ regs c, p' ≠ .forked regs c
  returning : ∀ regs ret before, p' = .returning regs ret before → before = dir
  exit : ∀ regs ret before, p = .returning regs ret before → p' = .dying ∨
    (stop = .syscall ∧ restart = .syscall ∧ seen = some { regs with rax := ret })

private theorem afterStop_dying (p : Place) (dir : Str) (seen : Option Regs) (stop : Stop) :
    p.AfterStop restart dir seen stop .dying :=
  ⟨fun _ => rfl, fun _ _ hf => (by cases hf), fun _ _ _ hr => (by cases hr), fun _ _ _ _ => .inl rfl⟩

/-- A stop of a task that is not past a call. -/
private theorem afterStop_other {p p' : Place} {dir : Str} {seen : Option Regs} {stop : Stop}
    (hd : p ≠ .dying) (hp : ∀ regs ret before, p ≠ .returning regs ret before) (hf : ∀ regs c, p' ≠ .forked regs c)
    (hr : ∀ regs ret before, p' = .returning regs ret before → before = dir) : p.AfterStop restart dir seen stop p' :=
  ⟨fun h => absurd h hd, hf, hr, fun regs ret before h => absurd h (hp regs ret before)⟩

/-- A stop that has to show the registers of the call. -/
private theorem afterStop_showing {p q p' : Place} {dir : Str} {seen : Option Regs} {stop : Stop} {shows : Regs → Bool}
    (hd : p ≠ .dying) (hp : ∀ regs ret before, p ≠ .returning regs ret before) (hf : ∀ regs c, q ≠ .forked regs c)
    (hr : ∀ regs ret before, q ≠ .returning regs ret before) (h : Place.showing seen shows q = some p') :
    p.AfterStop restart dir seen stop p' := by
  obtain rfl | ⟨regs, -, -, rfl⟩ := showing_some h
  · exact afterStop_dying p dir seen stop
  · exact afterStop_other hd hp hf fun regs ret before heq => absurd heq (hr regs ret before)

section
variable {seccompMode : Bool} {dir : Str} {seen : Option Regs} {p p' : Place}

private theorem afterStop_exec (h : p.stopped seccompMode restart dir seen .exec = some p') :
    p.AfterStop restart dir seen .exec p' := by
  cases p with
  | execed regs =>
    obtain rfl := Option.some.inj h
    apply afterStop_other
    · simp
    · simp
    · simp
    · exact fun _ _ _ hr => (Place.returning.inj hr).2.2.symm
  | _ => cases h

private theorem afterStop_signal {sig : Int} (h : p.stopped seccompMode restart dir seen (.signal sig) = some p') :
    p.AfterStop restart dir seen (.signal sig) p' := by
  cases p with
  | born | cloned | user =>
    obtain rfl := Option.some.inj h
    apply afterStop_other <;> simp
  | _ => cases h

private theorem afterStop_syscall (h : p.stopped seccompMode restart dir seen .syscall = some p') :
    p.AfterStop restart dir seen .syscall p' := by
  cases p with
  | cloned | entering =>
    simp only [Place.stopped] at h
    split at h
    · apply afterStop_showing _ _ _ _ h <;> simp
    · cases h
  | returning regs ret before =>
    simp only [Place.stopped] at h
    split at h
    · rename_i hsyscall
      obtain rfl | ⟨regs', hregs, hregs', rfl⟩ := showing_some h
      · exact afterStop_dying _ dir seen _
      · obtain rfl := of_decide_eq_true hregs'
        refine ⟨fun hd => (by cases hd), fun _ _ hf => (by cases hf), fun _ _ _ hr => (by cases hr), ?_⟩
        intro regs₂ ret₂ before₂ heq
        obtain ⟨rfl, rfl, rfl⟩ := Place.returning.inj heq
        exact .inr ⟨rfl, hsyscall, hregs⟩
    · cases h
  | _ => cases h

theorem Place.stopped_cases {stop : Stop} (h : p.stopped seccompMode restart dir seen stop = some p') :
    p.AfterStop restart dir seen stop p' := by
  cases stop with
  | exit usage =>
    obtain rfl : .dying = p' := Option.some.inj (by simpa [Place.stopped] using h)
    exact afterStop_dying p dir seen _
  | fork child cwd cmdline => cases h
  | exec => exact afterStop_exec h
  | sigtrap =>
    cases p with
    | user =>
      obtain rfl := Option.some.inj h
      apply afterStop_other <;> simp
    | _ => cases h
  | signal sig => exact afterStop_signal h
  | seccomp =>
    cases p with
    | entering regs due =>
      simp only [Place.stopped] at h
      split at h
      · apply afterStop_showing _ _ _ _ h <;> simp
      · cases h
    | _ => cases h
  | syscall => exact afterStop_syscall h

end
end
end Bdtrace
