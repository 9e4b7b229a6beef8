import Bdtrace.Session.Incarnations
import Mathlib.Tactic.Linarith

/-! Ids of processes over every protocol run, under any schedule of the writer. -/
namespace Bdtrace

namespace Incarnation

theorem generation_eq {k : Nat} (hk : k < 2147483648) : generation k = k := by
  induction k with
  | zero => rfl
  | succ k ih =>
    rw [generation, ih (by omega), int32_of_small (by omega) (by omega)]
    rfl

theorem id_eq {i : Incarnation} (hp : 0 < i.pid) (hfits : i.k * 10000000 + i.pid < 2147483648) :
    i.id = i.k * 10000000 + i.pid := by
  have hg : generation i.k = i.k := generation_eq (by omega)
  simp only [id, synthId, pidGenStride, hg]
  split
  · omega
  · rw [int32_of_small (x := i.k * 10000000) (by omega) (by omega), int32_of_small (by omega) (by omega)]

theorem id_injective {i j : Incarnation} (hi : 0 < i.pid ∧ i.pid < 10000000) (hik : i.k ≤ 213)
    (hj : 0 < j.pid ∧ j.pid < 10000000) (hjk : j.k ≤ 213) (h : i.id = j.id) : i = j := by
  rw [id_eq hi.1 (by omega), id_eq hj.1 (by omega)] at h
  obtain ⟨p, k⟩ := i
  obtain ⟨q, l⟩ := j
  simp only [Incarnation.mk.injEq] at h hi hj ⊢
  omega

end Incarnation

namespace Book

/-- Every process stands under a pid of the kernel's range, and no pid is recycled over `n` times. -/
def Bounded (b : Book) (n : Nat) : Prop :=
  ∀ p, 0 < b.begun p → (0 < p ∧ p < 10000000) ∧ b.begun p ≤ n + 1

theorem separate_of_bounded {b : Book} {n : Nat} (h : b.Bounded n) (hn : n ≤ 213) : b.Separate [] := by
  refine ⟨fun i j hi hj hid => ?_, fun i _ => by simp⟩
  obtain ⟨hip, hik⟩ := h i.pid (Nat.zero_lt_of_lt hi)
  obtain ⟨hjp, hjk⟩ := h j.pid (Nat.zero_lt_of_lt hj)
  refine Incarnation.id_injective hip ?_ hjp ?_ hid
  · have : i.k < b.begun i.pid := hi
    omega
  · have : j.k < b.begun j.pid := hj
    omega

private theorem begun_pos_mem {cs : List SessionCall} {p : Int} (h : 0 < (noteAll {} cs).begun p) :
    ∃ c ∈ cs, c.pid = p := by
  have hb := (begun_noteAll {} cs ⟨p, 0⟩).mp h
  have hmem : ⟨p, 0⟩ ∈ beginning {} cs := hb.resolve_left (by simp [Begun])
  clear hb h
  generalize ({} : Book) = b at hmem
  generalize hi : (⟨p, 0⟩ : Incarnation) = i at hmem
  replace hi : i.pid = p := by rw [← hi]
  induction cs generalizing b with
  | nil => simp [beginning] at hmem
  | cons c cs ih =>
    rcases List.mem_append.mp hmem with h | h
    · refine ⟨c, List.mem_cons_self .., ?_⟩
      cases c with
      | processStart rec =>
        simp only [opens] at h
        split at h
        · simp at h
        · rw [← hi, List.mem_singleton.mp h]
          rfl
      | _ => simp [opens] at h
    · obtain ⟨c', hc', hp⟩ := ih _ h
      exact ⟨c', List.mem_cons_of_mem _ hc', hp⟩

end Book

namespace Pipeline

/-- The calls of a schedule. -/
abbrev callsOf (acts : List PipelineAct) : List SessionCall := acts.filterMap PipelineAct.call?

/-- What a run on separate ids looks like after any part of its schedule. -/
structure OnProtocol (t : Tables) (acts : List PipelineAct) : Prop where
  follows : Follows (opened t) ((opened t).run acts) (callsOf acts)
  unrefused : Writer.Unrefused t.processes (({} : TraceSession).calls (callsOf acts)).2
  tracks : ((opened t).run acts).session.Tracks (Book.noteAll {} (callsOf acts))
  keyed : (Book.noteAll {} (callsOf acts)).Keyed t.processes
    (Writer.rowsAfter t.processes (({} : TraceSession).calls (callsOf acts)).2)
  notFatal : ((opened t).run acts).writer.hasFatalErrors = false

/-- Without earlier rows the calls need only be admitted. -/
theorem onAdmitted {t : Tables} (ht : t.Sound) (hk : t.pids.Nodup) {acts : List PipelineAct}
    (hp : Book.Admitted {} (callsOf acts)) (hx : t.processes = [] ∨ Book.Protocol {} (callsOf acts))
    (hs : (Book.noteAll {} (callsOf acts)).Separate t.pids) : OnProtocol t acts := by
  obtain ⟨hu, hkeyed⟩ := Book.keyed_calls TraceSession.tracks_fresh (Book.keyed_fresh hk) hp hx hs
  obtain ⟨hf, hfat⟩ := @run_follows (opened t) (Writer.opened_steady ht) rfl acts hu
  exact ⟨hf, hu, hf.session ▸ TraceSession.calls_tracks TraceSession.tracks_fresh hp, hkeyed, hfat⟩

theorem onProtocol {t : Tables} (ht : t.Sound) (hk : t.pids.Nodup) {acts : List PipelineAct}
    (hp : Book.Protocol {} (callsOf acts)) (hs : (Book.noteAll {} (callsOf acts)).Separate t.pids) :
    OnProtocol t acts := onAdmitted ht hk hp.admitted (.inr hp) hs

/-- A part of a schedule is itself on protocol. -/
private theorem onProtocol_before {t : Tables} (ht : t.Sound) (hk : t.pids.Nodup) {before rest : List PipelineAct}
    (hp : Book.Protocol {} (callsOf (before ++ rest)))
    (hs : (Book.noteAll {} (callsOf (before ++ rest))).Separate t.pids) : OnProtocol t before := by
  simp only [callsOf, List.filterMap_append, Book.noteAll_append, Book.along_append] at hp hs
  exact onProtocol ht hk hp.1 hs.mono

private theorem emits_current {t : Tables} {before : List PipelineAct} (h : OnProtocol t before)
    {c : SessionCall} (ha : (Book.noteAll {} (callsOf before)).Allows c) {ev : QueuedEvent}
    (hev : ((opened t).run before).emits c = some ev) :
    ev.pid = ((Book.noteAll {} (callsOf before ++ [c])).current c.pid).id := by
  obtain ⟨-, hfor⟩ := TraceSession.call_tracks h.tracks ha.admits
  simp only [emits, h.notFatal] at hev
  rw [hev] at hfor
  rw [Book.noteAll_append]
  exact hfor.pid_eq

private theorem start_finds_no_row {t : Tables} (ht : t.Sound) {before : List PipelineAct}
    (h : OnProtocol t before) {rec : ProcessRecord} {q : List QueuedEvent}
    (hq : ((opened t).run before).queue = .procStart rec :: q) :
    rec.pid ∉ ((opened t).run before).writer.db.tables.pids := by
  obtain ⟨es, heq, happ⟩ := h.follows.applied
  have hu := h.unrefused
  have heq' : es ++ .procStart rec :: q = (({} : TraceSession).calls (callsOf before)).2 := by
    rw [← hq]
    exact heq
  rw [← heq', Writer.unrefused_append] at hu
  have hall := Writer.applyAll_unrefused (w := Writer.opened t) (Writer.opened_steady ht) rfl hu.1
  have hnot : ¬ rec.pid ∈ (Writer.rowsAfter t.processes es).map (·.pid) := by
    simpa [Writer.Unrefused, QueuedEvent.refused] using hu.2.1
  rw [happ, Tables.pids]
  exact hall.processes ▸ hnot

/-- Ids of processes. For every schedule of a protocol run on an empty table: different processes have
different ids, every event carries the id of the process its pid stands for when the call is made, an
exec re-image carries the id of the delete before it, and no start meets a row with its id. -/
theorem incarnation_ids (acts : List PipelineAct) (hp : Book.Protocol {} (callsOf acts))
    (hpid : ∀ c ∈ callsOf acts, 0 < c.pid ∧ c.pid < 10000000)
    (hrec : ∀ p, (Book.noteAll {} (callsOf acts)).begun p ≤ 201) :
    (∀ i j, (Book.noteAll {} (callsOf acts)).Begun i → (Book.noteAll {} (callsOf acts)).Begun j →
      i ≠ j → i.id ≠ j.id) ∧
    (∀ before c after ev, acts = before ++ .call c :: after → ((opened {}).run before).emits c = some ev →
      ev.pid = ((Book.noteAll {} (callsOf before ++ [c])).current c.pid).id) ∧
    (∀ before between rec after del ev,
      acts = before ++ .call (.deleteProcess rec.pid) :: (between ++ .call (.processStart rec) :: after) →
      callsOf between = [] → ((opened {}).run before).emits (.deleteProcess rec.pid) = some del →
      ((opened {}).run (before ++ .call (.deleteProcess rec.pid) :: between)).emits (.processStart rec) = some ev →
      ev.pid = del.pid) ∧
    (∀ before rec q after, acts = before ++ .write :: after →
      ((opened {}).run before).queue = .procStart rec :: q →
      rec.pid ∉ ((opened {}).run before).writer.db.tables.pids) ∧
    ((opened {}).run acts).writer.writeErrorCount = 0 := by
  have hsound : Tables.Sound {} := by decide
  have hbound : (Book.noteAll {} (callsOf acts)).Bounded 200 := fun p hpos => by
    obtain ⟨c, hc, rfl⟩ := Book.begun_pos_mem hpos
    exact ⟨hpid c hc, hrec _⟩
  have hsep := Book.separate_of_bounded hbound (by omega)
  have hpart : ∀ before rest, acts = before ++ rest → OnProtocol {} before := by
    rintro before rest rfl
    exact onProtocol_before hsound (by decide) hp hsep
  have hallow : ∀ before c after, acts = before ++ .call c :: after →
      (Book.noteAll {} (callsOf before)).Allows c := by
    rintro before c after rfl
    simp only [callsOf, List.filterMap_append, Book.along_append] at hp
    exact hp.2.1
  have hev : ∀ before c after ev, acts = before ++ .call c :: after →
      ((opened {}).run before).emits c = some ev →
      ev.pid = ((Book.noteAll {} (callsOf before ++ [c])).current c.pid).id := fun before c after ev hacts he =>
    emits_current (hpart before _ hacts) (hallow before c after hacts) he
  refine ⟨fun i j hi hj hne hid => hne (hsep.1 i j hi hj hid), hev, ?_, ?_, ?_⟩
  · intro before between rec after del ev hacts hbetween hdel hstart
    have h1 := hev before _ _ del hacts hdel
    have h2 := hev (before ++ .call (.deleteProcess rec.pid) :: between) _ after ev (by simp [hacts]) hstart
    rw [h1, h2]
    simp only [callsOf] at hbetween
    simp [callsOf, hbetween, PipelineAct.call?, Book.noteAll_append, Book.note, Book.current, SessionCall.pid]
  · intro before rec q after hacts hq
    exact start_finds_no_row hsound (hpart before _ hacts) hq
  · have h := hpart acts [] (by simp)
    obtain ⟨es, heq, happ⟩ := h.follows.applied
    have hu := h.unrefused
    have heq' : es ++ ((opened {}).run acts).queue = (({} : TraceSession).calls (callsOf acts)).2 := heq
    rw [← heq', Writer.unrefused_append] at hu
    rw [happ]
    exact (Writer.applyAll_unrefused (Writer.opened_steady hsound) rfl hu.1).writeErrorCount

/-- A start, an exec, a lost exit and a recycled pid. -/
theorem incarnation_ids_recycled : (⟨100, 0⟩ : Incarnation).id ≠ (⟨100, 1⟩ : Incarnation).id :=
  (incarnation_ids
    [.call (.processStart { pid := 100, ppid := 7 }), .write, .call (.deleteProcess 100), .write,
      .call (.processStart { pid := 100, ppid := 7 }), .call (.fileAccess { pid := 100, filename := "a".toList }),
      .call (.processStart { pid := 100, ppid := 7 }), .write]
    (by decide) (by decide) (fun p => by
      simp only [callsOf, List.filterMap_cons, List.filterMap_nil, PipelineAct.call?, Book.noteAll_cons,
        Book.noteAll_nil, Book.note]
      by_cases h : p = 100 <;> simp [h])).1 _ _ (by decide) (by decide) (by decide)

end Pipeline
end Bdtrace
