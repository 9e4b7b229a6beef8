import Bdtrace.Session.IncarnationIds

/-! A dropped access was stored before under the same id: the keys of `seen_` belong to events
already handed to the writer. -/
namespace Bdtrace

private theorem FileAccessMode.code_bitVec_lt (m : FileAccessMode) : (BitVec.ofInt 64 m.code).toNat < 256 := by
  cases m <;> decide

private theorem FileAccessMode.code_bitVec_injective {m n : FileAccessMode}
    (h : BitVec.ofInt 64 m.code = BitVec.ofInt 64 n.code) : m = n := by
  apply FileAccessMode.code_injective
  have hm : (BitVec.ofInt 64 m.code).toInt = m.code := by cases m <;> decide
  have hn : (BitVec.ofInt 64 n.code).toInt = n.code := by cases n <;> decide
  rw [← hm, ← hn, h]

namespace TraceSession

theorem accessKey_injective {a b : FileAccessRecord} (h : accessKey a = accessKey b) : a.mode = b.mode :=
  FileAccessMode.code_bitVec_injective h

theorem failedKey_ne_accessKey (failed : FailedAccessRecord) (fa : FileAccessRecord) :
    failedKey failed ≠ accessKey fa := by
  intro h
  have hbit := congrArg (fun k : BitVec 64 => k.getLsbD 30) h
  have hlow : (BitVec.ofInt 64 fa.mode.code).getLsbD 30 = false :=
    Nat.testBit_lt_two_pow (fa.mode.code_bitVec_lt.trans (by decide))
  have hhigh : (0x40000000#64).getLsbD 30 = true := by decide
  simp only [failedKey, accessKey, BitVec.getLsbD_or, hhigh, hlow, Bool.true_or, Bool.true_eq_false] at hbit

/-- The errno values that the key of a failed access has room for. -/
def ErrnoFits (e : Int) : Prop := 0 ≤ e ∧ e ≤ 4095

private theorem failedKey_toNat {rec : FailedAccessRecord} (h : ErrnoFits rec.errnoVal) :
    (failedKey rec).toNat = (1 <<< 22 + rec.errnoVal.toNat) <<< 8 + (BitVec.ofInt 64 rec.mode.code).toNat := by
  obtain ⟨h0, h1⟩ := h
  have he : (BitVec.ofInt 64 rec.errnoVal).toNat = rec.errnoVal.toNat := by
    rw [BitVec.toNat_ofInt]
    omega
  have hlt : rec.errnoVal.toNat < 2 ^ 22 := by omega
  have hsh : (BitVec.ofInt 64 rec.errnoVal <<< 8).toNat = rec.errnoVal.toNat <<< 8 := by
    rw [BitVec.toNat_shiftLeft, he, Nat.mod_eq_of_lt]
    rw [Nat.shiftLeft_eq]
    omega
  rw [failedKey, BitVec.toNat_or, BitVec.toNat_or, hsh,
    Nat.shiftLeft_add_eq_or_of_lt (FileAccessMode.code_bitVec_lt _), Nat.shiftLeft_add_eq_or_of_lt hlt,
    Nat.shiftLeft_or_distrib]
  rfl

theorem failedKey_injective {a b : FailedAccessRecord} (ha : ErrnoFits a.errnoVal)
    (hb : ErrnoFits b.errnoVal) (h : failedKey a = failedKey b) : a.errnoVal = b.errnoVal ∧ a.mode = b.mode := by
  have hnat := congrArg BitVec.toNat h
  rw [failedKey_toNat ha, failedKey_toNat hb, Nat.shiftLeft_eq, Nat.shiftLeft_eq] at hnat
  have hm := a.mode.code_bitVec_lt
  have hn := b.mode.code_bitVec_lt
  obtain ⟨ha0, -⟩ := ha
  obtain ⟨hb0, -⟩ := hb
  refine ⟨by omega, FileAccessMode.code_bitVec_injective (BitVec.eq_of_toNat_eq (by omega))⟩

/-- Among the events is one that stores the access of the call under the id `x`; a failed access is
identified by its key. -/
def Stored (es : List QueuedEvent) (x : Int) : SessionCall → Prop
  | .fileAccess rec => ∃ fa, .fileAccess fa ∈ es ∧ fa.pid = x ∧ fa.filename = rec.filename ∧ fa.mode = rec.mode
  | .failedAccess rec => ∃ failed, .failedAccess failed ∈ es ∧ failed.pid = x ∧
      failed.filename = rec.filename ∧ failedKey failed = failedKey rec
  | _ => True

theorem Stored.mono {es fs : List QueuedEvent} {x : Int} {c : SessionCall} (h : Stored es x c) (hs : es ⊆ fs) :
    Stored fs x c := by
  cases c with
  | fileAccess rec =>
    obtain ⟨fa, hm, hrest⟩ := h
    exact ⟨fa, hs hm, hrest⟩
  | failedAccess rec =>
    obtain ⟨failed, hm, hrest⟩ := h
    exact ⟨failed, hs hm, hrest⟩
  | _ => trivial

/-- The key and path under which an event was remembered. -/
def Remembered (ev : QueuedEvent) (key : BitVec 64) (f : Str) : Prop :=
  (∃ fa, ev = .fileAccess fa ∧ fa.filename = f ∧ accessKey fa = key) ∨
    ∃ failed, ev = .failedAccess failed ∧ failed.filename = f ∧ failedKey failed = key

/-- Everything remembered for a pid was handed over under the id of its present process. -/
def SeenStored (s : TraceSession) (b : Book) (es : List QueuedEvent) : Prop :=
  ∀ p key f, (key, f) ∈ s.seen p → ∃ ev ∈ es, ev.pid = (b.current p).id ∧ Remembered ev key f

section
variable {s : TraceSession} {b : Book} {es : List QueuedEvent}

/-- Forgetting a pid, whatever its process becomes, keeps the invariant. -/
private theorem seenStored_erase (h : s.SeenStored b es) {t : TraceSession} {b' : Book} (pid : Int)
    (hseen : t.seen = Function.update s.seen pid ∅) (hcur : ∀ p, p ≠ pid → b'.current p = b.current p)
    {fs : List QueuedEvent} (hes : es ⊆ fs) : t.SeenStored b' fs := by
  intro p key f hm
  by_cases hp : p = pid
  · subst hp
    simp [hseen] at hm
  · rw [hseen, Function.update_of_ne hp] at hm
    obtain ⟨ev, hev, hid, hr⟩ := h p key f hm
    exact ⟨ev, hes hev, hcur p hp ▸ hid, hr⟩

private theorem seenStored_insert (h : s.SeenStored b es) {t : TraceSession} {pid : Int} {key : BitVec 64}
    {f : Str} {ev : QueuedEvent} (hseen : t.seen = Function.update s.seen pid (insert (key, f) (s.seen pid)))
    (hid : ev.pid = (b.current pid).id) (hr : Remembered ev key f) : t.SeenStored b (es ++ [ev]) := by
  intro p k g hm
  have hold : (k, g) ∈ s.seen p → ∃ ev' ∈ es ++ [ev], ev'.pid = (b.current p).id ∧ Remembered ev' k g := by
    intro hm'
    obtain ⟨ev', hev', hrest⟩ := h p k g hm'
    exact ⟨ev', List.mem_append_left _ hev', hrest⟩
  by_cases hp : p = pid
  · subst hp
    rw [hseen, Function.update_self, Finset.mem_insert] at hm
    rcases hm with heq | hm
    · obtain ⟨rfl, rfl⟩ := Prod.mk.inj heq
      exact ⟨ev, by simp, hid, hr⟩
    · exact hold hm
  · rw [hseen, Function.update_of_ne hp] at hm
    exact hold hm

/-- One admitted call: what is remembered stays stored, and the call's own access is stored too. -/
private theorem call_stored (ht : s.Tracks b) (h : s.SeenStored b es) {c : SessionCall} :
    (s.call false c).1.SeenStored (b.note c) (es ++ (s.call false c).2.toList) ∧
      Stored (es ++ (s.call false c).2.toList) ((b.note c).current c.pid).id c := by
  cases c with
  | processStart rec =>
    refine ⟨seenStored_erase h rec.pid ?_ (fun p hp => ?_) (List.subset_append_left _ _), trivial⟩
    · simp [call, onProcessStart, eraseSeen]
    · simp only [Book.note, Book.current]
      split
      · rfl
      · simp [Function.update_of_ne hp]
  | processExit pid x =>
    exact ⟨seenStored_erase h pid rfl (fun p _ => rfl) (List.subset_append_left _ _), trivial⟩
  | fileAccess rec =>
    have hid := ht.currentSynth rec.pid
    simp only [call, SessionCall.pid, Book.note]
    by_cases hm : (accessKey rec, rec.filename) ∈ s.seen rec.pid
    · rw [onFileAccess_seen hm, Option.toList_none, List.append_nil]
      obtain ⟨ev, hmem, hev, ⟨fa, rfl, hf, hk⟩ | ⟨failed, rfl, -, hk⟩⟩ := h _ _ _ hm
      · exact ⟨h, fa, hmem, hev, hf, accessKey_injective hk⟩
      · exact absurd hk (failedKey_ne_accessKey failed rec)
    · rw [onFileAccess_new hm, Option.toList_some, ← hid]
      exact ⟨seenStored_insert h rfl hid (.inl ⟨_, rfl, rfl, rfl⟩), { rec with pid := s.currentSynth rec.pid },
        by simp, rfl, rfl, rfl⟩
  | failedAccess rec =>
    have hid := ht.currentSynth rec.pid
    simp only [call, SessionCall.pid, Book.note]
    by_cases hm : (failedKey rec, rec.filename) ∈ s.seen rec.pid
    · rw [onFailedAccess_seen hm, Option.toList_none, List.append_nil]
      obtain ⟨ev, hmem, hev, ⟨fa, rfl, -, hk⟩ | ⟨failed, rfl, hf, hk⟩⟩ := h _ _ _ hm
      · exact absurd hk.symm (failedKey_ne_accessKey rec fa)
      · exact ⟨h, failed, hmem, hev, hf, hk⟩
    · rw [onFailedAccess_new hm, Option.toList_some, ← hid]
      exact ⟨seenStored_insert h rfl hid (.inr ⟨_, rfl, rfl, rfl⟩), { rec with pid := s.currentSynth rec.pid },
        by simp, rfl, rfl, rfl⟩
  | deleteProcess pid =>
    refine ⟨fun p key f hm => ?_, trivial⟩
    obtain ⟨ev, hmem, hrest⟩ := h p key f hm
    exact ⟨ev, List.mem_append_left _ hmem, hrest⟩

private theorem calls_seenStored (ht : s.Tracks b) (h : s.SeenStored b es) {cs : List SessionCall}
    (hp : b.Admitted cs) : (s.calls cs).1.SeenStored (b.noteAll cs) (es ++ (s.calls cs).2) := by
  induction cs generalizing s b es with
  | nil => simpa [calls] using h
  | cons c cs ih =>
    rw [calls, Book.noteAll_cons, ← List.append_assoc]
    exact ih (call_tracks ht hp.1).1 (call_stored ht h).1 hp.2

end

/-- Every access of a protocol run is among its events, under the id of the process that its pid
stood for when the call was made. -/
theorem calls_stored {before after : List SessionCall} {c : SessionCall}
    (hp : Book.Admitted {} (before ++ c :: after)) :
    Stored ((({} : TraceSession).calls (before ++ c :: after)).2)
      (((Book.noteAll {} (before ++ [c])).current c.pid).id) c := by
  rw [Book.Admitted, Book.along_append] at hp
  have ht := calls_tracks tracks_fresh hp.1
  have hseen : SeenStored {} {} [] := fun p key f hm => by simp at hm
  have hs := calls_seenStored tracks_fresh hseen hp.1
  rw [List.nil_append] at hs
  rw [Book.noteAll_append]
  refine (call_stored ht hs).2.mono ?_
  rw [calls_append, calls]
  intro ev hev
  rcases List.mem_append.mp hev with hev | hev <;> simp [hev]

end TraceSession
end Bdtrace
