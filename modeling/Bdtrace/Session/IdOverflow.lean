import Bdtrace.Session.IncarnationIds
import Mathlib.Data.List.Infix

/-! The 32-bit arithmetic of process ids on runs that recycle a pid any number of times. -/
namespace Bdtrace

/-- A call, and what `has_fatal_errors` answers at its start. -/
abbrev OfferedCall := Bool × SessionCall

/-- The processes that each kernel pid has stood for, and the pids that an exec has deleted. -/
structure PidHistory where
  begun : Int → Nat := fun _ => 0
  announced : Finset Int := ∅

namespace PidHistory

/-- A start begins another process, unless a delete has announced it. -/
def note (h : PidHistory) : SessionCall → PidHistory
  | .processStart rec =>
    if 0 < h.begun rec.pid ∧ rec.pid ∈ h.announced then { h with announced := h.announced.erase rec.pid }
    else { h with begun := Function.update h.begun rec.pid (h.begun rec.pid + 1) }
  | .processExit pid _ => { h with announced := h.announced.erase pid }
  | .deleteProcess pid => { h with announced := insert pid h.announced }
  | _ => h

def noteOffered (h : PidHistory) (c : OfferedCall) : PidHistory := if c.1 then h else h.note c.2

theorem begun_note (h : PidHistory) (c : SessionCall) (p : Int) :
    (h.note c).begun p = h.begun p ∨ ((h.note c).begun p = h.begun p + 1 ∧ c.pid = p) := by
  cases c with
  | processStart rec =>
    simp only [note]
    split
    · exact .inl rfl
    · by_cases hp : p = rec.pid
      · subst hp
        exact .inr ⟨Function.update_self .., rfl⟩
      · exact .inl (Function.update_of_ne hp ..)
  | _ => exact .inl rfl

private theorem begun_noteOffered (h : PidHistory) (c : OfferedCall) (p : Int) :
    (h.noteOffered c).begun p = h.begun p ∨ ((h.noteOffered c).begun p = h.begun p + 1 ∧ c.2.pid = p) := by
  rw [noteOffered]
  split
  · exact .inl rfl
  · exact h.begun_note c.2 p

end PidHistory

def historyAfter (cs : List OfferedCall) : PidHistory := cs.foldl PidHistory.noteOffered {}

def sessionAfter (cs : List OfferedCall) : TraceSession := cs.foldl (fun s c => (s.call c.1 c.2).1) {}

private theorem historyAfter_snoc (cs : List OfferedCall) (c : OfferedCall) :
    historyAfter (cs ++ [c]) = (historyAfter cs).noteOffered c := by
  rw [historyAfter, List.foldl_append]
  rfl

/-- The process that a kernel pid stands for after the calls. -/
def incarnationAfter (cs : List OfferedCall) (p : Int) : Incarnation := ⟨p, (historyAfter cs).begun p - 1⟩

/-- The pids that a kernel gives to processes. -/
def KernelPid (p : Int) : Prop := 0 < p ∧ p ≤ 4194304

/-- The value is one of an `int`. -/
def FitsInt (x : Int) : Prop := -2147483648 ≤ x ∧ x < 2147483648

/-- After any part of the run, what `current_synth` computes for a pid is an `int`, is positive, and is no other
process's id. -/
structure IdsSound (cs : List OfferedCall) : Prop where
  fits : ∀ before, before <+: cs → ∀ p, KernelPid p → ∀ g, (sessionAfter before).pidGen p = some g →
    FitsInt (g * pidGenStride) ∧ FitsInt (g * pidGenStride + p)
  positive : ∀ before, before <+: cs → ∀ p, KernelPid p → 0 < (sessionAfter before).currentSynth p
  separate : ∀ before other, before <+: cs → other <+: cs → ∀ p q, KernelPid p → KernelPid q →
    (sessionAfter before).currentSynth p = (sessionAfter other).currentSynth q →
      incarnationAfter before p = incarnationAfter other q

/-- The generations are those of the processes begun so far. -/
structure TraceSession.Counts (s : TraceSession) (h : PidHistory) : Prop where
  pidGen : ∀ p, s.pidGen p = if h.begun p = 0 then none else some (generation (h.begun p - 1))
  expected : s.expectReinsert = h.announced

theorem TraceSession.Counts.call {s : TraceSession} {h : PidHistory} (hc : s.Counts h) (c : OfferedCall) :
    ((s.call c.1 c.2).1).Counts (h.noteOffered c) := by
  obtain ⟨fatal, c⟩ := c
  cases fatal with
  | true => cases c <;> exact hc
  | false =>
    cases c with
    | processStart rec =>
      have hgen := hc.pidGen rec.pid
      simp only [TraceSession.call, onProcessStart, PidHistory.noteOffered, PidHistory.note,
        Bool.false_eq_true, if_false,
        beginIncarnation, eraseSeen]
      by_cases hnew : h.begun rec.pid = 0
      · rw [if_pos hnew] at hgen
        simp only [hgen]
        rw [if_neg (by omega)]
        refine ⟨fun p => ?_, hc.expected⟩
        by_cases hp : p = rec.pid
        · subst hp
          simp [hnew, generation]
        · simpa [Function.update_of_ne hp] using hc.pidGen p
      · rw [if_neg hnew] at hgen
        simp only [hgen, hc.expected]
        by_cases hann : rec.pid ∈ h.announced
        · rw [if_pos hann, if_pos ⟨by omega, hann⟩]
          exact ⟨hc.pidGen, rfl⟩
        · rw [if_neg hann, if_neg fun hboth => hann hboth.2]
          refine ⟨fun p => ?_, rfl⟩
          by_cases hp : p = rec.pid
          · subst hp
            obtain ⟨k, hk⟩ := Nat.exists_eq_succ_of_ne_zero hnew
            simp [hk, generation]
          · simpa [Function.update_of_ne hp] using hc.pidGen p
    | processExit pid x => exact ⟨hc.pidGen, by simp [TraceSession.call, onProcessExit, PidHistory.noteOffered,
        PidHistory.note, eraseSeen, hc.expected]⟩
    | fileAccess rec =>
      by_cases hm : (accessKey rec, rec.filename) ∈ s.seen rec.pid
      · simp only [TraceSession.call, onFileAccess_seen hm]
        exact ⟨hc.pidGen, hc.expected⟩
      · simp only [TraceSession.call, onFileAccess_new hm]
        exact ⟨hc.pidGen, hc.expected⟩
    | failedAccess rec =>
      by_cases hm : (failedKey rec, rec.filename) ∈ s.seen rec.pid
      · simp only [TraceSession.call, onFailedAccess_seen hm]
        exact ⟨hc.pidGen, hc.expected⟩
      · simp only [TraceSession.call, onFailedAccess_new hm]
        exact ⟨hc.pidGen, hc.expected⟩
    | deleteProcess pid => exact ⟨hc.pidGen, by simp [TraceSession.call, TraceSession.deleteProcess,
        PidHistory.noteOffered, PidHistory.note, hc.expected]⟩

private theorem sessionAfter_counts (cs : List OfferedCall) : (sessionAfter cs).Counts (historyAfter cs) := by
  induction cs using List.reverseRecOn with
  | nil => exact ⟨fun p => rfl, rfl⟩
  | append_singleton cs c ih =>
    rw [historyAfter_snoc, sessionAfter, List.foldl_append]
    exact ih.call c

private theorem begun_prefix_le {before cs : List OfferedCall} (h : before <+: cs) (p : Int) :
    (historyAfter before).begun p ≤ (historyAfter cs).begun p := by
  obtain ⟨after, rfl⟩ := h
  induction after using List.reverseRecOn with
  | nil => rw [List.append_nil]
  | append_singleton after c ih =>
    rw [← List.append_assoc, historyAfter_snoc]
    have hstep := (historyAfter (before ++ after)).begun_noteOffered c p
    apply ih.trans
    rcases hstep with hstep | ⟨hstep, -⟩
    · exact hstep.ge
    · exact (Nat.le_succ _).trans hstep.ge

/-- A pid that stood for a process was in one of the calls. -/
private theorem begun_pos_offered {cs : List OfferedCall} {p : Int} (h : 0 < (historyAfter cs).begun p) :
    ∃ c ∈ cs, c.2.pid = p := by
  induction cs using List.reverseRecOn with
  | nil => cases h
  | append_singleton cs c ih =>
    rw [historyAfter_snoc] at h
    rcases (historyAfter cs).begun_noteOffered c p with hstep | ⟨-, hpid⟩
    · obtain ⟨c', hc', hp⟩ := ih (lt_of_lt_of_eq h hstep)
      exact ⟨c', List.mem_append_left _ hc', hp⟩
    · exact ⟨c, List.mem_append_right _ (List.mem_singleton_self c), hpid⟩

/-- The processes of a pid begin one after the other. -/
private theorem begun_attained {cs : List OfferedCall} {p : Int} {n : Nat} (h : n ≤ (historyAfter cs).begun p) :
    ∃ before, before <+: cs ∧ (historyAfter before).begun p = n := by
  induction cs using List.reverseRecOn with
  | nil => exact ⟨[], List.prefix_refl [], (Nat.le_zero.mp h).symm⟩
  | append_singleton cs c ih =>
    by_cases hle : n ≤ (historyAfter cs).begun p
    · obtain ⟨before, hprefix, hn⟩ := ih hle
      exact ⟨before, hprefix.trans (List.prefix_append cs [c]), hn⟩
    · refine ⟨cs ++ [c], List.prefix_refl _, ?_⟩
      have hstep : (historyAfter (cs ++ [c])).begun p ≤ (historyAfter cs).begun p + 1 := by
        rw [historyAfter_snoc]
        rcases (historyAfter cs).begun_noteOffered c p with hstep | ⟨hstep, -⟩
        · exact hstep.le.trans (Nat.le_succ _)
        · exact hstep.le
      omega

private theorem currentSynth_eq_id (cs : List OfferedCall) (p : Int) :
    (sessionAfter cs).currentSynth p = (incarnationAfter cs p).id := by
  rw [TraceSession.currentSynth, (sessionAfter_counts cs).pidGen p, incarnationAfter]
  by_cases hnew : (historyAfter cs).begun p = 0
  · simp [hnew, Incarnation.id, synthId, generation]
  · rw [if_neg hnew]
    rfl

/-- The ids of a pid's first 215 processes. -/
private theorem Incarnation.id_exact {i : Incarnation} (hp : KernelPid i.pid) (hk : i.k ≤ 214) :
    i.id = i.k * pidGenStride + i.pid := by
  obtain ⟨hpos, hmax⟩ := hp
  exact id_eq hpos (by omega)

/-- A pid that stood for a 216th process has been given an id that is no `int`. -/
private theorem not_idsSound {cs : List OfferedCall} {p : Int} (hp : KernelPid p)
    (h : 215 < (historyAfter cs).begun p) :
    ¬IdsSound cs := by
  intro hsound
  obtain ⟨before, hprefix, hbegun⟩ := begun_attained h
  have hgen : (sessionAfter before).pidGen p = some 215 := by
    rw [(sessionAfter_counts before).pidGen p, hbegun]
    exact congrArg some (Incarnation.generation_eq (by omega))
  have hfits := (hsound.fits before hprefix p hp 215 hgen).1.2
  rw [pidGenStride] at hfits
  omega

/-- Ids are sound in exactly the runs where no kernel pid stands for more than 215 processes. -/
theorem idsSound_iff {cs : List OfferedCall} (hcs : ∀ c ∈ cs, KernelPid c.2.pid) :
    IdsSound cs ↔ ∀ p, (historyAfter cs).begun p ≤ 215 := by
  constructor
  · intro hsound p
    by_contra hover
    obtain ⟨c, hc, rfl⟩ := begun_pos_offered (lt_of_le_of_lt (Nat.zero_le 215) (not_le.mp hover))
    exact not_idsSound (hcs c hc) (not_le.mp hover) hsound
  · intro hbound
    have hexact : ∀ before, before <+: cs → ∀ p, KernelPid p → (incarnationAfter before p).k ≤ 214 ∧
        (sessionAfter before).currentSynth p = (incarnationAfter before p).k * pidGenStride + p := by
      intro before hprefix p hp
      have hk : (incarnationAfter before p).k ≤ 214 :=
        Nat.sub_le_of_le_add ((begun_prefix_le hprefix p).trans (hbound p))
      exact ⟨hk, (currentSynth_eq_id before p).trans (Incarnation.id_exact hp hk)⟩
    simp only [pidGenStride] at hexact
    refine ⟨?_, ?_, ?_⟩
    · intro before hprefix p hp g hg
      obtain ⟨hk, -⟩ := hexact before hprefix p hp
      obtain ⟨hpos, hmax⟩ := hp
      rw [(sessionAfter_counts before).pidGen p] at hg
      split at hg
      · cases hg
      · simp only [incarnationAfter] at hk
        rw [Incarnation.generation_eq (by omega)] at hg
        obtain rfl := Option.some.inj hg
        simp only [FitsInt, pidGenStride]
        omega
    · intro before hprefix p hp
      obtain ⟨hk, hid⟩ := hexact before hprefix p hp
      obtain ⟨hpos, hmax⟩ := hp
      omega
    · intro before other hprefix hother p q hp hq heq
      obtain ⟨hk, hid⟩ := hexact before hprefix p hp
      obtain ⟨hl, hid'⟩ := hexact other hother q hq
      obtain ⟨hpos, hmax⟩ := hp
      obtain ⟨hqpos, hqmax⟩ := hq
      rw [hid, hid'] at heq
      simp only [incarnationAfter, Incarnation.mk.injEq] at heq hk hl ⊢
      omega

/-- A pid that is recycled once. -/
theorem idsSound_iff_recycled :
    IdsSound [(false, .processStart { pid := 100 }), (false, .processStart { pid := 100 })] ↔
      ∀ p, (historyAfter
        [(false, .processStart { pid := 100 }), (false, .processStart { pid := 100 })]).begun p ≤ 215 :=
  idsSound_iff (by simp [KernelPid, SessionCall.pid])

/-- The same pid, started `n` times. -/
def wornPid (n : Nat) : List OfferedCall := List.replicate n (false, .processStart { pid := 100 })

private theorem begun_wornPid (n : Nat) : (historyAfter (wornPid n)).begun 100 = n ∧
    (historyAfter (wornPid n)).announced = ∅ := by
  induction n with
  | zero => exact ⟨rfl, rfl⟩
  | succ n ih =>
    rw [wornPid] at ih ⊢
    rw [List.replicate_succ', historyAfter_snoc]
    simp [PidHistory.noteOffered, PidHistory.note, ih]

theorem wornPid_overflows : (∀ c ∈ wornPid 216, KernelPid c.2.pid) ∧
    (sessionAfter (wornPid 216)).currentSynth 100 = -2144967196 ∧ ¬IdsSound (wornPid 216) := by
  have hbegun := (begun_wornPid 216).1
  have hworn : KernelPid 100 := ⟨by decide, by decide⟩
  refine ⟨?_, ?_, not_idsSound hworn (hbegun.symm ▸ Nat.lt_succ_self 215)⟩
  · intro c hc
    rw [List.eq_of_mem_replicate hc]
    exact hworn
  · rw [currentSynth_eq_id, incarnationAfter, hbegun, Incarnation.id, Incarnation.generation_eq (by decide)]
    decide

end Bdtrace
