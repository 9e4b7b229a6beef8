import Bdtrace.Session.Writer
import Mathlib.Algebra.Order.Ring.Int
import Mathlib.Data.Finset.Basic

/-! The half of a trace session that the event loop owns: generations of recycled pids,
deduplication, and the events it hands to the writer. -/
namespace Bdtrace

def pidGenStride : Int := 10000000

/-- The id of generation `g` of a kernel pid. -/
def synthId (pid g : Int) : Int := if g = 0 then pid else int32 (int32 (g * pidGenStride) + pid)

/-- The maps and counters of `TraceSession` that the event-loop thread owns. -/
structure TraceSession where
  pidGen : Int → Option Int := fun _ => none
  livePids : Finset Int := ∅
  expectReinsert : Finset Int := ∅
  seen : Int → Finset (BitVec 64 × Str) := fun _ => ∅
  processCount : Nat := 0
  fileAccessCount : Nat := 0
  failedAccessCount : Nat := 0
  dedupDropped : Nat := 0
  pidRecycles : Nat := 0
  lostExitStarts : Nat := 0

/-- One call of the tracer. -/
inductive SessionCall where
  | processStart (rec : ProcessRecord)
  | processExit (pid : Int) (x : ProcessExit)
  | fileAccess (rec : FileAccessRecord)
  | failedAccess (rec : FailedAccessRecord)
  | deleteProcess (pid : Int)
  deriving DecidableEq, Repr

/-- The kernel pid that a call is about. -/
def SessionCall.pid : SessionCall → Int
  | processStart rec => rec.pid
  | processExit pid _ => pid
  | fileAccess rec => rec.pid
  | failedAccess rec => rec.pid
  | deleteProcess pid => pid

namespace TraceSession

def currentSynth (s : TraceSession) (pid : Int) : Int :=
  match s.pidGen pid with
  | none => pid
  | some g => synthId pid g

def eraseSeen (s : TraceSession) (pid : Int) : TraceSession :=
  { s with seen := Function.update s.seen pid ∅ }

/-- The key of a failed access: mode and errno below a bit that no success key has. -/
def failedKey (rec : FailedAccessRecord) : BitVec 64 :=
  0x40000000#64 ||| (BitVec.ofInt 64 rec.errnoVal <<< 8) ||| BitVec.ofInt 64 rec.mode.code

def accessKey (rec : FileAccessRecord) : BitVec 64 := BitVec.ofInt 64 rec.mode.code

/-- Remember the access; the flag tells that it was there already. -/
def alreadySeen (s : TraceSession) (pid : Int) (key : BitVec 64) (filename : Str) : TraceSession × Bool :=
  if (key, filename) ∈ s.seen pid then ({ s with dedupDropped := s.dedupDropped + 1 }, true)
  else ({ s with seen := Function.update s.seen pid (insert (key, filename) (s.seen pid)) }, false)

/-- The three branches of `on_process_start` on `pid_gen_`. -/
def beginIncarnation (s : TraceSession) (pid : Int) : TraceSession :=
  match s.pidGen pid with
  | none => { s with pidGen := Function.update s.pidGen pid (some 0) }
  | some g =>
    -- exec re-image: the generation stays
    if pid ∈ s.expectReinsert then { s with expectReinsert := s.expectReinsert.erase pid }
    else
      { s with pidGen := Function.update s.pidGen pid (some (int32 (g + 1)))
               pidRecycles := s.pidRecycles + 1
               lostExitStarts := s.lostExitStarts + if pid ∈ s.livePids then 1 else 0 }

@[simp] theorem beginIncarnation_seen (s : TraceSession) (pid : Int) :
    (s.beginIncarnation pid).seen = s.seen := by
  unfold beginIncarnation
  split
  · rfl
  · split <;> rfl

section Calls
variable (fatal : Bool) (s : TraceSession)

def onProcessStart (rec : ProcessRecord) : TraceSession × Option QueuedEvent :=
  if fatal then (s, none) else
  let s := (s.eraseSeen rec.pid).beginIncarnation rec.pid
  let s := { s with livePids := insert rec.pid s.livePids }
  ({ s with processCount := s.processCount + 1 },
    some (.procStart { rec with pid := s.currentSynth rec.pid, ppid := s.currentSynth rec.ppid }))

def onProcessExit (pid : Int) (x : ProcessExit) : TraceSession × Option QueuedEvent :=
  if fatal then (s, none) else
  let s := s.eraseSeen pid
  ({ s with livePids := s.livePids.erase pid, expectReinsert := s.expectReinsert.erase pid },
    some (.procExit (s.currentSynth pid) x))

def onFileAccess (rec : FileAccessRecord) : TraceSession × Option QueuedEvent :=
  if fatal then (s, none) else
  match s.alreadySeen rec.pid (accessKey rec) rec.filename with
  | (s, true) => (s, none)
  | (s, false) => ({ s with fileAccessCount := s.fileAccessCount + 1 },
      some (.fileAccess { rec with pid := s.currentSynth rec.pid }))

def onFailedAccess (rec : FailedAccessRecord) : TraceSession × Option QueuedEvent :=
  if fatal then (s, none) else
  match s.alreadySeen rec.pid (failedKey rec) rec.filename with
  | (s, true) => (s, none)
  | (s, false) => ({ s with failedAccessCount := s.failedAccessCount + 1 },
      some (.failedAccess { rec with pid := s.currentSynth rec.pid }))

def deleteProcess (pid : Int) : TraceSession × Option QueuedEvent :=
  if fatal then (s, none) else
  ({ s with expectReinsert := insert pid s.expectReinsert }, some (.deleteProc (s.currentSynth pid)))

/-- Dispatch of one call; `fatal` is what `has_fatal_errors` answers at its start. -/
def call : SessionCall → TraceSession × Option QueuedEvent
  | .processStart rec => s.onProcessStart fatal rec
  | .processExit pid x => s.onProcessExit fatal pid x
  | .fileAccess rec => s.onFileAccess fatal rec
  | .failedAccess rec => s.onFailedAccess fatal rec
  | .deleteProcess pid => s.deleteProcess fatal pid

end Calls

theorem onFileAccess_seen {s : TraceSession} {rec : FileAccessRecord}
    (h : (accessKey rec, rec.filename) ∈ s.seen rec.pid) :
    s.onFileAccess false rec = ({ s with dedupDropped := s.dedupDropped + 1 }, none) := by
  simp only [onFileAccess, alreadySeen, h, if_true, Bool.false_eq_true, if_false]

theorem onFileAccess_new {s : TraceSession} {rec : FileAccessRecord}
    (h : (accessKey rec, rec.filename) ∉ s.seen rec.pid) :
    s.onFileAccess false rec =
      ({ s with
          seen := Function.update s.seen rec.pid (insert (accessKey rec, rec.filename) (s.seen rec.pid))
          fileAccessCount := s.fileAccessCount + 1 },
        some (.fileAccess { rec with pid := s.currentSynth rec.pid })) := by
  simp only [onFileAccess, alreadySeen, h, Bool.false_eq_true, if_false]
  rfl

theorem onFailedAccess_seen {s : TraceSession} {rec : FailedAccessRecord}
    (h : (failedKey rec, rec.filename) ∈ s.seen rec.pid) :
    s.onFailedAccess false rec = ({ s with dedupDropped := s.dedupDropped + 1 }, none) := by
  simp only [onFailedAccess, alreadySeen, h, if_true, Bool.false_eq_true, if_false]

theorem onFailedAccess_new {s : TraceSession} {rec : FailedAccessRecord}
    (h : (failedKey rec, rec.filename) ∉ s.seen rec.pid) :
    s.onFailedAccess false rec =
      ({ s with
          seen := Function.update s.seen rec.pid (insert (failedKey rec, rec.filename) (s.seen rec.pid))
          failedAccessCount := s.failedAccessCount + 1 },
        some (.failedAccess { rec with pid := s.currentSynth rec.pid })) := by
  simp only [onFailedAccess, alreadySeen, h, Bool.false_eq_true, if_false]
  rfl

end TraceSession
end Bdtrace
