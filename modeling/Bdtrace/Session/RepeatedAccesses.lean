import Bdtrace.General.FirstOccurrences
import Bdtrace.Session.Deduplication

/-! Between two boundaries of a pid, the accesses handed over for it are the offered ones without their repeats. -/
namespace Bdtrace
open FirstOccurrences

/-- A start or an exit of the pid. -/
def Boundary (p : Int) : SessionCall → Prop
  | .processStart rec => rec.pid = p
  | .processExit pid _ => pid = p
  | _ => False

/-- An access that the tracer offers. -/
inductive Access where
  | done (rec : FileAccessRecord)
  | failed (rec : FailedAccessRecord)
  deriving DecidableEq, Repr

/-- The access that a call offers for the pid. -/
def accessOf (p : Int) : SessionCall → Option Access
  | .fileAccess rec => if rec.pid = p then some (.done rec) else none
  | .failedAccess rec => if rec.pid = p then some (.failed rec) else none
  | _ => none

/-- What two accesses must agree in to be repeats: failure and its errno, mode and path. -/
structure AccessTraits where
  failure : Option Int
  mode : FileAccessMode
  filename : Str
  deriving DecidableEq, Repr

namespace Access

def traits : Access → AccessTraits
  | done rec => ⟨none, rec.mode, rec.filename⟩
  | failed rec => ⟨some rec.errnoVal, rec.mode, rec.filename⟩

/-- The event of the access under an id. -/
def event (id : Int) : Access → QueuedEvent
  | done rec => .fileAccess { rec with pid := id }
  | failed rec => .failedAccess { rec with pid := id }

/-- What `seen_` remembers of the access. -/
def seenKey : Access → BitVec 64 × Str
  | done rec => (TraceSession.accessKey rec, rec.filename)
  | failed rec => (TraceSession.failedKey rec, rec.filename)

def ErrnoFits : Access → Prop
  | done _ => True
  | failed rec => TraceSession.ErrnoFits rec.errnoVal

instance : DecidablePred ErrnoFits
  | done _ => .isTrue trivial
  | failed _ => inferInstanceAs (Decidable (_ ∧ _))

private theorem seenKey_eq_iff {a b : Access} (ha : a.ErrnoFits) (hb : b.ErrnoFits) :
    a.seenKey = b.seenKey ↔ a.traits = b.traits := by
  cases a with
  | done rec =>
    cases b with
    | done rec' =>
      simp only [seenKey, traits, Prod.mk.injEq, AccessTraits.mk.injEq, true_and]
      exact and_congr_left' ⟨TraceSession.accessKey_injective, fun h => by rw [TraceSession.accessKey, h]; rfl⟩
    | failed rec' =>
      simp only [seenKey, traits, Prod.mk.injEq, AccessTraits.mk.injEq, reduceCtorEq, false_and, iff_false, not_and]
      exact fun h => absurd h.symm (TraceSession.failedKey_ne_accessKey rec' rec)
  | failed rec =>
    cases b with
    | done rec' =>
      simp only [seenKey, traits, Prod.mk.injEq, AccessTraits.mk.injEq, reduceCtorEq, false_and, iff_false, not_and]
      exact fun h => absurd h (TraceSession.failedKey_ne_accessKey rec rec')
    | failed rec' =>
      simp only [seenKey, traits, Prod.mk.injEq, AccessTraits.mk.injEq, Option.some.injEq, ← and_assoc]
      refine and_congr_left' ⟨TraceSession.failedKey_injective ha hb, fun h => ?_⟩
      rw [TraceSession.failedKey, TraceSession.failedKey, h.1, h.2]

end Access

namespace TraceSession

/-- The access events that the calls put in the queue for the pid. -/
def accessEvents (p : Int) : TraceSession → List SessionCall → List QueuedEvent
  | _, [] => []
  | s, c :: cs =>
    (if (accessOf p c).isSome then (s.call false c).2.toList else []) ++ accessEvents p (s.call false c).1 cs

/-- An access is handed over under the present id if its key is not among the remembered ones, where it is then. -/
private theorem call_access {s : TraceSession} {p : Int} {c : SessionCall} {a : Access} (h : accessOf p c = some a) :
    (s.call false c).2 = (if a.seenKey ∈ s.seen p then none else some (a.event (s.currentSynth p))) ∧
      (s.call false c).1.seen p = insert a.seenKey (s.seen p) ∧ (s.call false c).1.pidGen = s.pidGen := by
  cases c with
  | fileAccess rec =>
    simp only [accessOf] at h
    split at h
    · rename_i hp
      subst hp
      obtain rfl := Option.some.inj h
      by_cases hm : (accessKey rec, rec.filename) ∈ s.seen rec.pid
      · simp [call, onFileAccess_seen hm, Access.seenKey, hm]
      · simp [call, onFileAccess_new hm, Access.seenKey, Access.event, hm]
    · cases h
  | failedAccess rec =>
    simp only [accessOf] at h
    split at h
    · rename_i hp
      subst hp
      obtain rfl := Option.some.inj h
      by_cases hm : (failedKey rec, rec.filename) ∈ s.seen rec.pid
      · simp [call, onFailedAccess_seen hm, Access.seenKey, hm]
      · simp [call, onFailedAccess_new hm, Access.seenKey, Access.event, hm]
    · cases h
  | _ => cases h

private theorem beginIncarnation_pidGen_of_ne (s : TraceSession) {p pid : Int} (h : p ≠ pid) :
    (s.beginIncarnation pid).pidGen p = s.pidGen p := by
  unfold beginIncarnation
  split
  · exact Function.update_of_ne h ..
  · split
    · rfl
    · exact Function.update_of_ne h ..

private theorem currentSynth_congr {s t : TraceSession} {p : Int} (h : t.pidGen p = s.pidGen p) :
    t.currentSynth p = s.currentSynth p := by
  rw [currentSynth, h, currentSynth]

/-- What is no access and no boundary of the pid leaves what is remembered for it. -/
private theorem call_other {s : TraceSession} {p : Int} {c : SessionCall} (h : accessOf p c = none)
    (hc : ¬Boundary p c) :
    (s.call false c).1.seen p = s.seen p ∧ (s.call false c).1.pidGen p = s.pidGen p := by
  cases c with
  | processStart rec =>
    have hp : p ≠ rec.pid := fun heq => hc heq.symm
    refine ⟨by simp [call, onProcessStart, eraseSeen, Function.update_of_ne hp], ?_⟩
    exact beginIncarnation_pidGen_of_ne (s.eraseSeen rec.pid) hp
  | processExit pid x =>
    have hp : p ≠ pid := fun heq => hc heq.symm
    exact ⟨Function.update_of_ne hp .., rfl⟩
  | fileAccess rec =>
    have hp : p ≠ rec.pid := by
      intro heq
      rw [accessOf, if_pos heq.symm] at h
      cases h
    by_cases hm : (accessKey rec, rec.filename) ∈ s.seen rec.pid
    · simp only [call, onFileAccess_seen hm, and_self]
    · simp only [call, onFileAccess_new hm, Function.update_of_ne hp, and_self]
  | failedAccess rec =>
    have hp : p ≠ rec.pid := by
      intro heq
      rw [accessOf, if_pos heq.symm] at h
      cases h
    by_cases hm : (failedKey rec, rec.filename) ∈ s.seen rec.pid
    · simp only [call, onFailedAccess_seen hm, and_self]
    · simp only [call, onFailedAccess_new hm, Function.update_of_ne hp, and_self]
  | deleteProcess pid => exact ⟨rfl, rfl⟩

/-- A boundary forgets what was remembered for its pid. -/
private theorem call_boundary {s : TraceSession} {p : Int} {c : SessionCall} (hc : Boundary p c) :
    (s.call false c).1.seen p = ∅ := by
  cases c with
  | processStart rec =>
    cases hc
    simp [call, onProcessStart, eraseSeen]
  | processExit pid x =>
    cases hc
    exact Function.update_self ..
  | _ => cases hc

/-- Up to the next boundary the session runs the loop on the keys of the accesses. -/
private theorem accessEvents_eq {s : TraceSession} {p : Int} {cs : List SessionCall} (hcs : ∀ c ∈ cs, ¬Boundary p c) :
    s.accessEvents p cs =
      (unseen Access.seenKey (s.seen p) (cs.filterMap (accessOf p))).map (Access.event (s.currentSynth p)) := by
  induction cs generalizing s with
  | nil => rfl
  | cons c cs ih =>
    have hrest := @ih (s.call false c).1 fun d hd => hcs d (List.mem_cons_of_mem c hd)
    rw [accessEvents, hrest]
    cases hacc : accessOf p c with
    | none =>
      obtain ⟨hseen, hgen⟩ := call_other (s := s) hacc (hcs c List.mem_cons_self)
      rw [List.filterMap_cons_none hacc, hseen, currentSynth_congr hgen]
      rfl
    | some a =>
      obtain ⟨hev, hseen, hgen⟩ := call_access (s := s) hacc
      rw [List.filterMap_cons_some hacc, hev, hseen, currentSynth_congr (congrFun hgen p), unseen]
      by_cases ha : a.seenKey ∈ s.seen p
      · simp [ha]
      · simp [ha]

/-- Between two boundaries of a pid, the access events for it are the offered accesses, in order and without later
repeats of the same failure and errno, mode and path. -/
theorem accesses_deduplicated {before segment : List SessionCall} {p : Int}
    (hbefore : ∀ last ∈ before.getLast?, Boundary p last) (hsegment : ∀ c ∈ segment, ¬Boundary p c)
    (herrno : ∀ a ∈ segment.filterMap (accessOf p), a.ErrnoFits) :
    (({} : TraceSession).calls before).1.accessEvents p segment =
      (firsts Access.traits (segment.filterMap (accessOf p))).map
        (Access.event ((({} : TraceSession).calls before).1.currentSynth p)) := by
  have hempty : (({} : TraceSession).calls before).1.seen p = ∅ := by
    cases before using List.reverseRecOn with
    | nil => rfl
    | append_singleton before last =>
      have hlast := hbefore last (by simp)
      rw [calls_append]
      exact call_boundary hlast
  rw [accessEvents_eq hsegment, hempty, unseen_empty]
  congr 1
  apply firsts_congr
  intro a ha b hb
  exact Access.seenKey_eq_iff (herrno b hb) (herrno a ha)

/-- Accesses of two pids to one file, with an exec and a repeat of each kind. -/
theorem accesses_deduplicated_mixed :
    (({} : TraceSession).calls [.processStart { pid := 7 }]).1.accessEvents 7
      [.fileAccess { pid := 7, filename := ['a'] }, .fileAccess { pid := 8, filename := ['a'] },
        .failedAccess { pid := 7, filename := ['a'], errnoVal := 2 }, .deleteProcess 7,
        .fileAccess { pid := 7, filename := ['a'], fd := 3 },
          .failedAccess { pid := 7, filename := ['a'], errnoVal := 2 },
        .failedAccess { pid := 7, filename := ['a'] }] =
      [.fileAccess { pid := 7, filename := ['a'] }, .failedAccess { pid := 7, filename := ['a'], errnoVal := 2 },
        .failedAccess { pid := 7, filename := ['a'] }] := by
  apply accesses_deduplicated
  · simp [Boundary]
  · simp [Boundary]
  · decide

end TraceSession
end Bdtrace
