import Bdtrace.Tracer.CwdForks

/-! The cached working directories over whole runs: a relative path is resolved, and a process recorded, with
the directory that the kernel has for the task. -/
namespace Bdtrace

/-- The directory that a process is recorded with. -/
def SessionCall.startedCwd : SessionCall → Option Str
  | .processStart rec => some rec.cwd
  | _ => none

private theorem SessionCall.AccessOf.startedCwd {pid : Int} {c : SessionCall} (h : c.AccessOf pid) :
    c.startedCwd = none := by
  cases c with
  | processStart rec => exact h.elim
  | _ => rfl

namespace Family
variable (F : Family) (setup : Setup)

/-- A syscall stop makes the calls that it makes with the directory `dirOf` in the cache, and a fork event records
the child with its directory, if the tracer is `told` of it. An exec records the task with its directory. -/
def CwdCoherent (dirOf : CwdRun → Nat → Str) (told : CwdRun → TaskEvent → Prop) (r : CwdRun) : CwdEvent → Prop
  | .task _ (.report t status view) =>
    (status = .stopped .syscall → told r (.report t status view) →
      (handleSyscallStop view (F.pid t) (r.tracing.backend.entry (F.pid t))).2 =
        (handleSyscallStop view (F.pid t) { r.tracing.backend.entry (F.pid t) with cachedCwd := dirOf r t }).2) ∧
    ∀ call ∈ (F.handle r.tracing.backend (.report t status view)).2, ∀ cwd ∈ call.startedCwd, cwd = r.dir t
  | .task _ (.forkEvent t c cwd cmdline view) => told r (.forkEvent t c cwd cmdline view) → c ∉ r.tracing.world.ended →
    ∀ call ∈ (F.handle r.tracing.backend (.forkEvent t c cwd cmdline view)).2, ∀ cwd ∈ call.startedCwd, cwd = r.dir c
  | _ => True

/-- The reporting task is not astray and has its own entry, and the child of a fork event is not astray. -/
def Told (r : CwdRun) (e : TaskEvent) : Prop :=
  (∀ t ∈ e.reporter, t ∉ r.astray ∧ t ∉ r.mistaken ∪ F.mistakes r e) ∧ ∀ c ∈ e.forked, c ∉ r.astray

instance (r : CwdRun) (e : TaskEvent) : Decidable (F.Told r e) := inferInstanceAs (Decidable (_ ∧ _))

instance (dirOf : CwdRun → Nat → Str) (told : CwdRun → TaskEvent → Prop) [∀ r e, Decidable (told r e)] (r : CwdRun) :
    (e : CwdEvent) → Decidable (F.CwdCoherent dirOf told r e)
  | .task _ (.report t status view) => inferInstanceAs (Decidable (
      (status = .stopped .syscall → told r (.report t status view) →
        (handleSyscallStop view (F.pid t) (r.tracing.backend.entry (F.pid t))).2 =
          (handleSyscallStop view (F.pid t) { r.tracing.backend.entry (F.pid t) with cachedCwd := dirOf r t }).2) ∧
      ∀ call ∈ (F.handle r.tracing.backend (.report t status view)).2, ∀ cwd ∈ call.startedCwd, cwd = r.dir t))
  | .task _ (.forkEvent t c cwd cmdline view) => inferInstanceAs (Decidable (told r (.forkEvent t c cwd cmdline view) →
      c ∉ r.tracing.world.ended →
      ∀ call ∈ (F.handle r.tracing.backend (.forkEvent t c cwd cmdline view)).2,
        ∀ cwd ∈ call.startedCwd, cwd = r.dir c))
  | .task _ (.spawn _) | .task _ (.vanish _) | .effect .. | .enter .. | .leave _ => inferInstanceAs (Decidable True)

variable {F setup}

/-- An exec records the task with what `/proc` shows, and no other report records a process. -/
private theorem coherent_report {r : CwdRun} {shares : Bool} {t : Nat} {status : WaitStatus} {view : TraceeView}
    (hp : F.CwdPossible setup r (.task shares (.report t status view))) {call : SessionCall}
    (hcall : call ∈ (F.handle r.tracing.backend (.report t status view)).2) {cwd : Str} (hcwd : cwd ∈ call.startedCwd) :
    cwd = r.dir t := by
  obtain ⟨-, hpossible, hshows⟩ := hp
  cases hends : status.ends with
  | true =>
    obtain ⟨x, -, hcalls, -⟩ := r.tracing.backend.handleReport_ends view (F.pid t) hends
    rw [handle, hcalls, List.mem_singleton] at hcall
    subst hcall
    cases hcwd
  | false =>
    cases status with
    | exited code => cases hends
    | signaled sig => cases hends
    | stopped stop =>
      have haccess : ∀ {c : SessionCall}, c.AccessOf (F.pid t) → cwd ∉ c.startedCwd := fun hc hm => by
        rw [hc.startedCwd] at hm
        cases hm
      by_cases hexec : stop = .exec
      · subst hexec
        have hcalls : (F.handle r.tracing.backend (.report t (.stopped .exec) view)).2 = execAccess view (F.pid t) ++
            [.deleteProcess (F.pid t),
              .processStart { pid := F.pid t, ppid := (r.tracing.backend.entry (F.pid t)).ppid, cwd := view.cwd
                              cmdline := view.cmdline, startTimeUs := view.now }] := rfl
        rw [hcalls] at hcall
        rcases List.mem_append.mp hcall with hcall | hcall
        · exact absurd hcwd (haccess (PtraceBackend.execAccess_accesses view (F.pid t) call hcall))
        · rcases List.mem_pair.mp hcall with rfl | rfl
          · cases hcwd
          · exact (Option.some.inj hcwd).symm.trans hshows
      · have hquiet := (r.tracing.backend.handleReport_calls view (F.pid t) hpossible.2 hexec).1 call hcall
        exact absurd hcwd (haccess hquiet)

namespace CwdKept
variable {r : CwdRun} (h : F.CwdKept setup r)
include h

/-- A syscall stop resolves every relative path from where the kernel looks it up. -/
private theorem coherent_syscall {shares : Bool} {t : Nat} {view : TraceeView}
    (hp : F.CwdPossible setup r (.task shares (.report t (.stopped .syscall) view)))
    (htold : F.Told r (.report t (.stopped .syscall) view)) :
    (handleSyscallStop view (F.pid t) (r.tracing.backend.entry (F.pid t))).2 =
      (handleSyscallStop view (F.pid t) { r.tracing.backend.entry (F.pid t) with cachedCwd := r.lookupDir t }).2 := by
  obtain ⟨hnext, hpossible, hcwd⟩ := hp
  obtain ⟨q, hq⟩ := Option.isSome_iff_exists.mp hnext
  obtain ⟨p, hstop, -⟩ := Option.map_eq_some_iff.mp hq
  have hdying : r.place t ≠ .dying := fun hd => by
    rw [hd] at hstop
    cases hstop
  obtain ⟨hastray, hown⟩ := htold.1 t rfl
  have hold := h.entry rfl hpossible.1 hdying hown
  rcases hold.cached hastray with hc | ⟨hempty, hnew⟩
  · rw [← hc]
  · have hlookup : r.lookupDir t = view.cwd := by
      rw [hcwd]
      apply lookupDir_eq
      intro regs ret before hr
      exact (h.moved t regs ret before hr hpossible.1 hastray).resolve_right fun hm => hnew hm.2.1
    rw [hlookup, ← handleSyscallStop_filled, ← hempty]

private theorem coherent {e : CwdEvent} (hp : F.CwdPossible setup r e) : F.CwdCoherent CwdRun.lookupDir F.Told r e := by
  cases e with
  | task shares e =>
    cases e with
    | forkEvent t c cwd cmdline view =>
      intro htold hlive call hcall d hd
      obtain ⟨hnext, hpossible, hcwd⟩ := hp
      obtain ⟨regs, hplace, -⟩ := forking hnext
      obtain ⟨cmdline', -, hcalls⟩ := r.tracing.backend.handleReport_fork_child view (F.pid t) (F.pid_range c).1.ne'
        (h.sane.pid_ne hpossible) cwd cmdline
      rw [handle, hcalls, List.mem_singleton] at hcall
      subst hcall
      obtain rfl := Option.some.inj hd
      obtain ⟨hastray, hown⟩ := htold.1 t rfl
      have hold := h.forking_entry hplace hpossible fun hm => hown (Finset.mem_union_left _ hm)
      exact h.fork_cwd hplace hpossible hcwd.2 hlive hold hastray (htold.2 c rfl)
    | report t status view =>
      refine ⟨fun hs htold => ?_, fun call hcall d hd => ?_⟩
      · subst hs
        exact h.coherent_syscall hp htold
      · exact coherent_report hp hcall hd
    | spawn c => trivial
    | vanish t => trivial
  | _ => trivial

end CwdKept

private theorem cwdKept_start (view : TraceeView) : F.CwdKept setup (F.startDirs setup view) := by
  have hplace : ∀ t, (F.startDirs setup view).place t = .cloned ∨ (F.startDirs setup view).place t = .born :=
    fun t => by
    by_cases hroot : t = 0
    · exact .inl (if_pos hroot)
    · exact .inr (if_neg hroot)
  refine ⟨⟨sane_start, Finset.empty_subset _, fun t _ => Finset.mem_singleton_self 0, ?_, ?_, ?_⟩, ⟨rfl, rfl⟩, ?_⟩
  · intro t _ hroot
    exact .inl (if_neg hroot)
  · intro t regs c hp
    rcases hplace t with hc | hc
    all_goals cases hc.symm.trans hp
  · intro t regs ret before hp
    rcases hplace t with hc | hc
    all_goals cases hc.symm.trans hp
  · intro t hactive _ _ _
    obtain rfl : t = 0 := Finset.mem_singleton.mp hactive.1
    refine ⟨_, PtraceBackend.track_self _ _ _, fun _ => .inl rfl,
      fun hm => absurd (Finset.mem_singleton_self 0) hm, fun _ => ?_⟩
    exact ⟨rfl, fun _ hphase => (by cases hphase)⟩

/-! ### Runs of a shell and its children -/

section

private def dirA : Str := "/a".toList
private def dirB : Str := "/b".toList
private def chdirCall : Regs := { origRax := sysChdir, rdi := 8, rax := 0 }
private def statCall : Regs := { origRax := sysStat, rdi := 8, rax := 0 }
private def cloneCall : Regs := { origRax := 56, rax := 0 }

/-- The string that a call finds at its address. -/
private def reading (cwd path : Str) (regs : Regs) : TraceeView :=
  { regs := some regs, string := fun _ => path, cwd := cwd }

private def attach (t : Nat) (cwd : Str) : CwdEvent :=
  .task false (.report t (.stopped (.signal sigstop)) { cwd := cwd })

/-- A call in classic mode, from the directory `before` to `after`. -/
private def classic (t : Nat) (regs : Regs) (o : Outcome) (before after path : Str) : List CwdEvent :=
  [.enter t regs, .task false (.report t (.stopped .syscall) (reading before path regs.atEntry)), .effect t o,
    .task false (.report t (.stopped .syscall) (reading after path { regs with rax := 0 }))]

private def cloneEntry (t c : Nat) (shares : Bool) (cwd : Str) : List CwdEvent :=
  [.enter t cloneCall, .task false (.report t (.stopped .syscall) (reading cwd [] cloneCall.atEntry)),
    .task shares (.spawn c)]

private def cloneExit (t c : Nat) (cwd childCwd : Str) : List CwdEvent :=
  [.task false (.forkEvent t c childCwd [] { cwd := cwd }),
    .task false (.report t (.stopped .syscall)
      (reading cwd [] { cloneCall with rax := BitVec.ofInt 64 (reusedChild.pid c) }))]

private def cloned (t c : Nat) (shares : Bool) (cwd : Str) : List CwdEvent :=
  cloneEntry t c shares cwd ++ [attach c cwd] ++ cloneExit t c cwd cwd

private def toB (t : Nat) (path : Str) : List CwdEvent := classic t chdirCall (.moves dirB) dirA dirB path

private def statB (t : Nat) : List CwdEvent := classic t statCall (.returns 0) dirB dirB "xy".toList

def incoherent : List (Setup × List CwdEvent) :=
  [
    -- a chdir with a relative path
    ({}, toB 0 "xy".toList),
    -- a thread changes the directory of both
    ({}, cloned 0 1 true dirA ++ toB 1 dirB ++ statB 0),
    ({ procsOnly := true }, [.enter 0 chdirCall, .effect 0 (.moves dirB), .leave 0, .enter 0 cloneCall,
      .task false (.spawn 1), .task false (.forkEvent 0 1 dirB [] { cwd := dirB })]),
    ({ seccompMode := true, order := .filterFirst }, [.enter 0 chdirCall,
      .task false (.report 0 (.stopped .seccomp) (reading dirA dirB chdirCall.atEntry)),
      .task false (.report 0 (.stopped .syscall) (reading dirA dirB chdirCall.atEntry)),
      .effect 0 (.moves dirB), .leave 0, .enter 0 cloneCall, .task false (.spawn 1),
      .task false (.forkEvent 0 1 dirB [] { cwd := dirB })]),
    -- the child changes its directory before its fork event
    ({}, cloneEntry 0 1 false dirA ++ [attach 1 dirA] ++ toB 1 dirB ++ cloneExit 0 1 dirA dirB),
    -- the entry of task 2 is left when task 3 reports
    ({}, cloned 0 1 false dirA ++ cloned 0 2 false dirA ++ [.task false (.vanish 2)] ++ toB 1 dirB ++
      cloneEntry 1 3 false dirB ++ [attach 3 dirB] ++ statB 3),
    -- task 2 vanishes inside a call, and task 3 gets its entry
    ({}, cloned 0 1 false dirA ++ cloneEntry 0 2 false dirA ++ [attach 2 dirA, .enter 2 cloneCall,
      .task false (.report 2 (.stopped .syscall) (reading dirA [] cloneCall.atEntry)), .task false (.vanish 2)] ++
      cloneEntry 1 3 false dirA ++ cloneExit 1 3 dirA dirA ++ [attach 3 dirA] ++ toB 3 dirB ++ statB 3),
    -- the fork event of task 2 comes after that of task 3
    ({}, cloned 0 1 false dirA ++ toB 1 dirB ++ cloneEntry 0 2 false dirA ++ [attach 2 dirA,
      .task false (.report 2 (.exited 0) {})] ++ cloned 1 3 false dirB ++ cloneExit 0 2 dirA dirA ++ statB 3)]

end

/-- The first child changes its directory with a relative path and resolves another there, then the second
child is cloned. -/
private def movingChild : List CwdEvent :=
  cloned 0 1 false dirA ++ toB 1 "xy".toList ++ statB 1 ++ cloned 0 2 false dirA

end Family
end Bdtrace
