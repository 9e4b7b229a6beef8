import Bdtrace.Tracer.CallPhases

/-! The cached working directory of a task at a stop: when it is refreshed, and that an empty cache is as
good as a true one. -/
namespace Bdtrace

/-! ### What the handlers do to the cache -/

section
variable (view : TraceeView) (pid : Int) (ps : ProcessState)

/-- The cache of `r` is that of `ps` or what `/proc` shows. -/
def CachedIn (view : TraceeView) (ps : ProcessState) (r : ProcessState) : Prop :=
  r.cachedCwd = ps.cachedCwd ∨ r.cachedCwd = view.cwd

private theorem recordedPath_cached (addr : BitVec 64) : CachedIn view ps (recordedPath view ps addr).1 := by
  simp only [recordedPath]
  split
  · exact .inl rfl
  · simp only [resolvePathCached]
    split
    · exact .inl rfl
    · exact .inl rfl
    · simp only
      split
      · exact .inr rfl
      · exact .inl rfl

private theorem recordGiven_cached (addr : BitVec 64) (mode : FileAccessMode) :
    CachedIn view ps (recordGiven view pid ps addr mode).1 := by
  simp only [recordGiven]
  split
  · exact recordedPath_cached view ps addr
  · exact .inl rfl

private theorem recordExit_cached (rax : BitVec 64) : CachedIn view ps (recordExit view pid ps rax).1 := by
  have h : ∀ v, CachedIn v ps (recordExit v pid ps rax).1 := by
    refine recordExit_forms (P := fun f => ∀ v, CachedIn v ps (f v).1) ?_ ?_ ?_ ?_ ?_ ?_ ?_
    · exact fun _ => .inl rfl
    · intro mode fd v
      simp only [recordEither]
      split
      · exact .inl rfl
      · split
        · exact recordedPath_cached v ps _
        · exact recordedPath_cached v ps _
    · intro mode v
      simp only [recordOne]
      split
      · exact recordGiven_cached v pid ps _ mode
      · exact .inl rfl
    · intro src dst v
      simp only [recordTwo]
      split
      · rcases recordGiven_cached v pid (recordGiven v pid ps ps.pendingPathAddr src).1
          ps.pendingPathAddr2 dst with hc | hc
        · rcases recordGiven_cached v pid ps ps.pendingPathAddr src with hc' | hc'
          · exact .inl (hc.trans hc')
          · exact .inr (hc.trans hc')
        · exact .inr hc
      · exact .inl rfl
    · exact fun v => recordedPath_cached v ps _
    · exact fun _ => .inr rfl
    · exact fun _ => .inr rfl
  exact h view

private theorem handleSyscallStop_cached : CachedIn view ps (handleSyscallStop view pid ps).1 := by
  simp only [handleSyscallStop]
  split
  · exact .inl rfl
  · split
    · exact .inl rfl
    · split
      · exact .inl rfl
      · exact recordExit_cached view pid { ps with scPhase := .entryNext } _

theorem handleOwnStop_cached (b : PtraceBackend) (stop : Stop) :
    CachedIn view ps (b.handleOwnStop view pid ps stop).1.1 := by
  cases stop with
  | exec => exact .inr rfl
  | syscall => exact handleSyscallStop_cached view pid ps
  | seccomp =>
    simp only [PtraceBackend.handleOwnStop, handleSeccompStop]
    split
    · exact .inl rfl
    · split <;> exact .inl rfl
  | signal sig =>
    simp only [PtraceBackend.handleOwnStop]
    split <;> exact .inl rfl
  | _ => exact .inl rfl

/-- The exit of a call that moves the task refreshes the cache. -/
private theorem recordExit_moved {rax : BitVec 64} (hrax : 0 ≤ rax.toInt)
    (h : ps.pendingSyscall = sysChdir ∧ ps.pendingPathAddr ≠ 0 ∨ ps.pendingSyscall = sysFchdir) :
    (recordExit view pid ps rax).1.cachedCwd = view.cwd := by
  rcases h with ⟨hsc, haddr⟩ | hsc
  · have hform : recordExit view pid ps rax =
        if 0 ≤ rax.toInt ∧ ps.pendingPathAddr ≠ 0 then
          ({ (recordAccess view pid ps ps.pendingPathAddr .chdir (-1)).1 with cachedCwd := view.cwd },
            (recordAccess view pid ps ps.pendingPathAddr .chdir (-1)).2)
        else (ps, []) := by
      simp only [recordExit, hsc]
      rfl
    rw [hform, if_pos ⟨hrax, haddr⟩]
  · rw [recordExit_fchdir hsc hrax]

/-- The exit stop of such a call. -/
theorem exit_moved {regs : Regs} {ret : BitVec 64} (h : Armed regs ps) (hmoves : regs.movesDir = true)
    (hret : 0 ≤ ret.toInt) (hregs : view.regs = some { regs with rax := ret }) :
    (handleSyscallStop view pid ps).1.cachedCwd = view.cwd := by
  obtain ⟨-, hsc, haddr⟩ := h.saved (h.moves hmoves)
  have hne : ret.toInt ≠ -enosys := by
    simp only [enosys]
    omega
  rw [handleSyscallStop_exit pid hregs hne fun _ => h.moves hmoves]
  apply recordExit_moved view pid { ps with scPhase := .entryNext } hret
  simp only [hsc, haddr]
  exact Regs.movesDir_saved hmoves

/-! An empty cache is as good as one with what `/proc` shows. -/

private theorem recordedPath_filled (addr : BitVec 64) :
    (recordedPath view { ps with cachedCwd := [] } addr).2 =
      (recordedPath view { ps with cachedCwd := view.cwd } addr).2 := by
  simp only [recordedPath]
  split
  · rfl
  · simp only [resolvePathCached]
    split
    · rfl
    · rfl
    · by_cases hcwd : view.cwd = []
      · simp [hcwd]
      · simp [hcwd]

private theorem recordAccess_filled (addr : BitVec 64) (mode : FileAccessMode) (fd : Int) :
    (recordAccess view pid { ps with cachedCwd := [] } addr mode fd).2 =
      (recordAccess view pid { ps with cachedCwd := view.cwd } addr mode fd).2 := by
  simp only [recordAccess, recordedPath_filled]

private theorem recordFailedAccess_filled (addr : BitVec 64) (mode : FileAccessMode) (e : Int) :
    (recordFailedAccess view pid { ps with cachedCwd := [] } addr mode e).2 =
      (recordFailedAccess view pid { ps with cachedCwd := view.cwd } addr mode e).2 := by
  simp only [recordFailedAccess, recordedPath_filled]

private theorem recordGiven_filled (addr : BitVec 64) (mode : FileAccessMode) :
    (recordGiven view pid { ps with cachedCwd := [] } addr mode).2 =
      (recordGiven view pid { ps with cachedCwd := view.cwd } addr mode).2 := by
  simp only [recordGiven]
  split
  · exact recordAccess_filled view pid ps addr mode (-1)
  · rfl

private theorem recordGiven_keeps (addr : BitVec 64) (mode : FileAccessMode) :
    (recordGiven view pid ps addr mode).1 = ps ∨
      (recordGiven view pid ps addr mode).1 = { ps with cachedCwd := view.cwd } := by
  have hframe := (recordGiven_records view pid ps addr mode).frame
  rcases recordGiven_cached view pid ps addr mode with hc | hc
  · exact .inl (hframe.trans (by rw [hc]))
  · exact .inr (hframe.trans (by rw [hc]))

private theorem recordExit_filled (rax : BitVec 64) :
    (recordExit view pid { ps with cachedCwd := [] } rax).2 =
      (recordExit view pid { ps with cachedCwd := view.cwd } rax).2 := by
  refine recordExit_cwd_forms (P := fun f => (f view []).2 = (f view view.cwd).2) ?_ ?_ ?_ ?_ ?_ ?_ ?_
  · rfl
  · intro mode fd
    simp only [recordEither]
    split
    · rfl
    · split
      · exact recordAccess_filled view pid ps _ mode fd
      · exact recordFailedAccess_filled view pid ps _ mode _
  · intro mode
    simp only [recordOne]
    split
    · exact recordGiven_filled view pid ps _ mode
    · rfl
  · intro src dst
    simp only [recordTwo]
    split
    · have hempty := recordGiven_keeps view pid { ps with cachedCwd := [] } ps.pendingPathAddr src
      have hfull := recordGiven_keeps view pid { ps with cachedCwd := view.cwd } ps.pendingPathAddr src
      simp only [or_self] at hfull
      simp only [recordGiven_filled view pid ps ps.pendingPathAddr src, hfull]
      rcases hempty with hempty | hempty
      · rw [hempty, recordGiven_filled view pid ps ps.pendingPathAddr2 dst]
      · rw [hempty]
    · rfl
  · exact recordAccess_filled view pid ps _ _ _
  · exact recordAccess_filled view pid ps _ _ _
  · rfl

theorem handleSyscallStop_filled : (handleSyscallStop view pid { ps with cachedCwd := [] }).2 =
    (handleSyscallStop view pid { ps with cachedCwd := view.cwd }).2 := by
  simp only [handleSyscallStop]
  split
  · rfl
  · split
    · rfl
    · rename_i regs _
      have hbranch : ∀ cwd, stopBranch { ps with cachedCwd := cwd } regs = stopBranch ps regs := fun _ => rfl
      simp only [hbranch]
      cases stopBranch ps regs with
      | entry => rfl
      | skipped => exact recordExit_filled view pid { ps with scPhase := .entryNext } regs.rax
      | exit => exact recordExit_filled view pid { ps with scPhase := .entryNext } regs.rax

end
end Bdtrace
