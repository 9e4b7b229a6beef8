import Bdtrace.Tracer.ForeignSimulation

/-! When the calls of 32-bit tasks are taken for others in classic mode. -/
namespace Bdtrace
namespace ForeignRun
variable (clock clock' : Nat → Int) {pid : Int} {c s : ForeignRun}

/-- What a task in `/etc` can be made to show. -/
def etcView : TraceeView where
  string _ := "/etc/hosts".toList
  cwd := "/etc".toList

/-- A call with these registers that ends as a recorded call of the x86_64 table does. -/
def etcCall (regs : I386Regs) : ForeignCall where
  regs := regs
  ret := if (regs.shown 0).origRax = sysExecve ∨ (regs.shown 0).origRax = sysExecveat then BitVec.ofInt 64 (-14) else 0
  exit := etcView

def etcHistory (regs : List I386Regs) : ForeignHistory where
  calls := regs.map etcCall
  death := .exited 0
  ends := rfl

private theorem etcCall_ret (regs : I386Regs) :
    if (regs.shown 0).origRax = sysExecve ∨ (regs.shown 0).origRax = sysExecveat then (etcCall regs).ret.toInt = -14
    else (etcCall regs).ret.toInt = 0 := by
  have hfails : (BitVec.ofInt 64 (-14)).toInt = -14 := by decide
  rw [etcCall]
  split
  · exact hfails
  · exact BitVec.toInt_zero

private theorem etcCall_returns (regs : I386Regs) : (etcCall regs).ret.toInt ≠ -enosys := by
  have hret := etcCall_ret regs
  split at hret
  · rw [hret]
    decide
  · rw [hret]
    decide

private theorem etcCall_reported (regs : I386Regs) : Reported (regs.shown 0).origRax (etcCall regs).ret := by
  have hret := etcCall_ret regs
  refine ⟨etcCall_returns regs, fun hexec => ?_, fun hother => ?_⟩
  · simp only [execFamily, List.mem_cons, List.not_mem_nil, or_false] at hexec
    rw [if_pos hexec] at hret
    omega
  · have hexec : ¬((regs.shown 0).origRax = sysExecve ∨ (regs.shown 0).origRax = sysExecveat) := fun hexec =>
      hother (List.mem_append_right _ (by simpa [execFamily] using hexec))
    rw [if_neg hexec] at hret
    omega

private theorem recordedPath_etc {v : TraceeView} (hv : v.string = etcView.string) {ps : ProcessState}
    {addr : BitVec 64}
    (haddr : addr ≠ 0) : (recordedPath v ps addr).2 = some "/etc/hosts".toList := by
  have hread : readString v addr = "/etc/hosts".toList := by
    rw [readString, if_neg haddr, hv]
    rfl
  have hresolved : resolvePathCached v ps "/etc/hosts".toList = (ps, "/etc/hosts".toList) := by
    change (ps, normalizePath "/etc/hosts".toList) = _
    rw [show normalizePath "/etc/hosts".toList = "/etc/hosts".toList by decide]
  have hkept : ¬("/etc/hosts".toList = [] ∨ shouldFilterPath "/etc/hosts".toList = true) := by decide
  simp only [recordedPath, hread, if_neg hkept, hresolved]
  rw [if_neg fun h => hkept (.inr h)]

/-- A call that is taken for another leads to an access at its exit. -/
private theorem traceCall_etc {regs : I386Regs} (h : regs.mistaken = true) {v : TraceeView}
    (hstring : v.string = etcView.string)
    (hcwd : v.cwd = etcView.cwd) {ps : ProcessState} (hready : Ready ps) :
    (traceCall .syscall v pid ps (regs.shown 0) (etcCall regs).ret).2 ≠ [] := by
  have hret := etcCall_ret regs
  rw [traceCall_calls (fun _ => hready) h (etcCall_returns regs)]
  by_cases hfchdir : (regs.shown 0).origRax = sysFchdir
  · have hsucceeds : (etcCall regs).ret.toInt = 0 := by
      rwa [hfchdir, if_neg (by decide)] at hret
    have hkept : ¬(etcView.cwd = [] ∨ shouldFilterPath etcView.cwd = true) := by decide
    rw [recordExit_fchdir hfchdir (by rw [hsucceeds]), hcwd, if_neg hkept]
    exact List.cons_ne_nil _ _
  · have haddr : (entryArgs (regs.shown 0) (regs.shown 0).origRax).1 ≠ 0 := by
      simpa only [I386Regs.mistaken, Regs.needed, decodeSyscallEntry, hfchdir, decide_false, Bool.or_false,
        decide_eq_true_eq] using h
    have hmem : (regs.shown 0).origRax ∈ tracedSyscalls := by
      by_contra hmem
      exact haddr (congrArg (·.1) (entryArgs_untraced (regs.shown 0) hmem).1)
    exact (recordExit_tells (recordedPath_etc hstring haddr) hmem hfchdir (etcCall_reported regs)).ne_nil

/-- Between two calls. -/
def Between (pid : Int) (r : ForeignRun) : Prop := r.Classic ∧ ∃ ps, r.backend.procs pid = some ps ∧ Ready ps

/-- A call in classic mode. -/
private theorem perform_classic {r : ForeignRun} (h : r.Between pid) (regs : I386Regs) :
    ∃ v ps, v.string = etcView.string ∧ v.cwd = etcView.cwd ∧ Ready ps ∧
      (r.perform clock pid (etcCall regs)).Between pid ∧
      (r.perform clock pid (etcCall regs)).calls =
        r.calls ++ (traceCall .syscall v pid ps (regs.shown 0) (etcCall regs).ret).2 := by
  obtain ⟨hclassic, ps, hps, hready⟩ := h
  -- the entry stop
  obtain ⟨seen, hseen, henter⟩ := syscallStop_classic clock hclassic hps (regs.shown 0).atEntry {}
  have hentered : handleSyscallStop seen pid ps = (entered ps (regs.shown 0), []) := by
    have hregs : seen.regs = some (regs.shown 0).atEntry := by rw [hseen]
    have hentry := handleSyscallStop_entry pid hregs (regs.shown 0).atEntry_rax hready
    exact hentry
  rw [hentered, List.append_nil, List.append_nil] at henter
  generalize hr : r.syscallStop clock pid (regs.shown 0).atEntry {} = r₁ at henter
  have hclassic₁ : r₁.Classic := by
    rw [henter]
    exact ⟨hclassic.1, hclassic.2.1, rfl⟩
  have hprocs₁ : r₁.backend.procs pid = some (entered ps (regs.shown 0)) := by
    rw [henter]
    exact PtraceBackend.track_self ..
  -- the exit stop
  obtain ⟨left, hleft, hleave⟩ := syscallStop_classic clock hclassic₁ hprocs₁ (regs.shown (etcCall regs).ret) etcView
  have hcall : handleSyscallStop left pid (entered ps (regs.shown 0)) =
      traceCall .syscall { etcView with now := clock r₁.stops } pid ps (regs.shown 0) (etcCall regs).ret := by
    rw [traceCall, enterCall_syscall hready, hleft]
    rfl
  have hperform : r.perform clock pid (etcCall regs) =
      r₁.syscallStop clock pid (regs.shown (etcCall regs).ret) etcView := by
    have hentry := @enter_eq clock pid r regs {}
    change ((r.enter clock pid regs {}).syscallStop clock pid (regs.shown (etcCall regs).ret) etcView) = _
    rw [hentry, ← hr]
    rfl
  rw [hperform, hleave, hcall]
  refine ⟨{ etcView with now := clock r₁.stops }, ps, rfl, rfl, hready, ⟨⟨hclassic₁.1, hclassic₁.2.1, rfl⟩, ?_⟩, ?_⟩
  · exact ⟨_, PtraceBackend.track_self .., traceCall_ready hready⟩
  · rw [henter]

private theorem perform_etc {r : ForeignRun} (h : r.Between pid) (regs : I386Regs) :
    (r.perform clock pid (etcCall regs)).Between pid ∧
      r.calls.length + (if regs.mistaken then 1 else 0) ≤ (r.perform clock pid (etcCall regs)).calls.length := by
  obtain ⟨v, ps, hstring, hcwd, hready, hbetween, hcalls⟩ := perform_classic clock h regs
  refine ⟨hbetween, ?_⟩
  rw [hcalls, List.length_append]
  split
  · rename_i hmistaken
    exact Nat.add_le_add_left (List.length_pos_iff.mpr (traceCall_etc hmistaken hstring hcwd hready)) _
  · exact Nat.le_add_right _ _

private theorem performAll_etc {r : ForeignRun} (h : r.Between pid) (regs : List I386Regs) :
    r.calls.length + regs.countP (·.mistaken) ≤ ((regs.map etcCall).foldl (perform clock pid) r).calls.length := by
  induction regs generalizing r with
  | nil => exact le_refl _
  | cons reg regs ih =>
    obtain ⟨hbetween, hgrows⟩ := perform_etc clock h reg
    have hrest := ih hbetween
    rw [List.countP_cons]
    rw [List.map_cons, List.foldl_cons]
    omega

/-- In seccomp mode such calls run to their ends. -/
private theorem performAll_etc_seccomp {r : ForeignRun} (h : r.restart = .cont) (regs : List I386Regs) :
    (regs.map etcCall).foldl (perform clock pid) r = r := by
  have hstop : ∀ regs view, r.syscallStop clock pid regs view = r := by
    intro regs view
    rw [syscallStop, h]
    rfl
  induction regs with
  | nil => rfl
  | cons reg regs ih =>
    have hperform : r.perform clock pid (etcCall reg) = r := by
      have henter := @enter_eq clock pid r reg {}
      rw [hstop] at henter
      change (((r.enter clock pid reg {}).syscallStop clock pid (reg.shown (etcCall reg).ret) etcView)) = r
      rw [henter, hstop]
    rw [List.map_cons, List.foldl_cons, hperform, ih]

/-- In classic mode the history has an access for each call that is taken for another. -/
private theorem live_etc (pid : Int) (regs : List I386Regs) :
    regs.countP (·.mistaken) + 1 ≤ ((start false fun _ => some {}).live clock pid (etcHistory regs)).calls.length := by
  have hbetween : (start false fun _ => some {}).Between pid := by
    refine ⟨⟨rfl, rfl, rfl⟩, {}, rfl, ?_⟩
    intro hphase
    cases hphase
  have hgrows := performAll_etc clock hbetween regs
  have hstart : (start false fun _ => some {}).calls.length = 0 := rfl
  change _ ≤ (_ ++ [_]).length
  rw [List.length_append, List.length_singleton]
  apply Nat.add_le_add_right
  rwa [hstart, Nat.zero_add] at hgrows

/-- In seccomp mode it has only the exit of the task. -/
private theorem live_etc_seccomp (pid : Int) (regs : List I386Regs) :
    ((start true fun _ => some {}).live clock pid (etcHistory regs)).calls.length = 1 := by
  have hstill := @performAll_etc_seccomp clock pid (start true fun _ => some {}) rfl regs
  have hlive : (start true fun _ => some {}).live clock pid (etcHistory regs) =
      ((regs.map etcCall).foldl (perform clock pid) (start true fun _ => some {})).report clock pid {} (.exited 0) :=
        rfl
  rw [hlive, hstill]
  rfl

end ForeignRun

open ForeignRun

/-- Foreign tasks. The classic path makes just the calls of the seccomp path, whatever the task's calls return and
whatever else happens to it, if and only if no call looks like a recorded one. -/
theorem harmless_iff (regs : List I386Regs) : Harmless regs ↔ ∀ reg ∈ regs, reg.mistaken = false := by
  constructor
  · intro h reg hreg
    by_contra hmistaken
    have hregs : (etcHistory regs).registers = regs := by
      simp [ForeignHistory.registers, etcHistory, etcCall, Function.comp_def]
    have hquiet : Quiet {} := ⟨rfl, .inr rfl⟩
    have hsame := congrArg List.length (h (fun _ => 0) (fun _ => 0) 1 (fun _ => some {}) {} rfl hquiet _ hregs).1
    have hclassic := live_etc (fun _ => 0) 1 regs
    have hseccomp := live_etc_seccomp (fun _ => 0) 1 regs
    have hpos : 0 < regs.countP (·.mistaken) := List.countP_pos_iff.mpr ⟨reg, hreg, by simpa using hmistaken⟩
    rw [untimed, List.length_map, untimed, List.length_map, hseccomp] at hsame
    omega
  · rintro hneed clock clock' pid procs ps hps hquiet h rfl
    exact live_alike clock clock' (start_alike hps hquiet) h hneed

/-- `close` of i386 has the number of `lstat`, and `edi` is no argument of it. -/
def foreignClose : ForeignHistory where
  calls := [{ regs := { origEax := 6, edi := 8 }, ret := 0, exit := etcView }]
  death := .exited 0
  ends := rfl

/-- Classic mode records the path that `edi` happens to point to. -/
theorem foreignClose_misrecorded :
    ((ForeignRun.start false fun _ => some {}).live (fun _ => 0) 100 foreignClose).calls =
        [.fileAccess { pid := 100, filename := "/etc/hosts".toList, mode := .stat, fd := -1, timestampUs := 0 },
          .processExit 100 { endTimeUs := 0, exitCode := 0 }] ∧
      ((ForeignRun.start true fun _ => some {}).live (fun _ => 0) 100 foreignClose).calls =
        [.processExit 100 { endTimeUs := 0, exitCode := 0 }] ∧
      ¬Harmless [{ origEax := 6, edi := 8 }] := by
  refine ⟨by decide +kernel, by decide +kernel, ?_⟩
  intro h
  have hquiet : Quiet {} := ⟨rfl, .inr rfl⟩
  have hsame := (h (fun _ => 0) (fun _ => 0) 100 (fun _ => some {}) {} rfl hquiet foreignClose rfl).2.1
  revert hsame
  decide +kernel

end Bdtrace
