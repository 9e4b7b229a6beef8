import Mathlib.Data.List.Basic

/-! Scripts of statements against a durable store, with transactions, failing statements and
interruptions between two statements. -/
namespace Scripts

/-- What the storage layer does with a statement that has no error of its own. -/
inductive Reply where
  | done | failed | rolledBack
  deriving DecidableEq, Repr

/-- The replies to the statements of a run, in order, and the reply to a commit. -/
structure Faults where
  statement : Nat → Reply
  commit : Reply

def Faults.healthy : Faults := ⟨fun _ => .done, .done⟩

def Faults.drop (r : Faults) (n : Nat) : Faults := ⟨fun k => r.statement (n + k), r.commit⟩

def Faults.tail (r : Faults) : Faults := ⟨fun n => r.statement (n + 1), r.commit⟩

/-- `current` is what the connection reads; `durable` is what an interruption leaves. -/
@[ext] structure Conn (σ : Type) where
  current : σ
  durable : σ
  inTransaction : Bool

variable {σ : Type}

def opened (s : σ) : Conn σ := ⟨s, s, false⟩

namespace Conn

/-- A finished statement is durable at once when no transaction is open. -/
def write (c : Conn σ) (s : σ) : Conn σ := { c with current := s, durable := if c.inTransaction then c.durable else s }

def rollback (c : Conn σ) : Conn σ := opened c.durable

end Conn

/-- A program over the store. A statement is a partial function; `none` is an error of its own. -/
inductive Script (σ : Type) where
  | done (ok : Bool)
  | look (next : σ → Script σ)
  | exec (f : σ → Option σ) (next : Bool → Script σ)
  | begin (next : Bool → Script σ)
  | commit (next : Bool → Script σ)
  | rollback (next : Script σ)

namespace Script

def run : Script σ → Faults → Conn σ → Bool × Conn σ
  | done ok, _, c => (ok, c)
  | look next, r, c => (next c.current).run r c
  | exec f next, r, c =>
    match r.statement 0, f c.current with
    | .done, some s => (next true).run r.tail (c.write s)
    | .done, none => (next false).run r.tail c
    | .failed, _ => (next false).run r.tail c
    | .rolledBack, _ => (next false).run r.tail c.rollback
  | begin next, r, c =>
    match r.statement 0 with
    | .done =>
      if c.inTransaction then (next false).run r.tail c else (next true).run r.tail { c with inTransaction := true }
    | .failed => (next false).run r.tail c
    | .rolledBack => (next false).run r.tail c.rollback
  | commit next, r, c =>
    match r.commit with
    | .done => if c.inTransaction then (next true).run r (opened c.current) else (next false).run r c
    | .failed => (next false).run r c
    | .rolledBack => (next false).run r c.rollback
  | rollback next, r, c => next.run r c.rollback

/-- The first `n` statements of a run in which the storage layer refuses none. -/
def stop : Script σ → Nat → Conn σ → Conn σ
  | done _, _, c => c
  | look next, n, c => (next c.current).stop n c
  | exec _ _, 0, c => c
  | exec f next, n + 1, c =>
    match f c.current with
    | some s => (next true).stop n (c.write s)
    | none => (next false).stop n c
  | begin _, 0, c => c
  | begin next, n + 1, c =>
    if c.inTransaction then (next false).stop n c else (next true).stop n { c with inTransaction := true }
  | commit _, 0, c => c
  | commit next, n + 1, c => if c.inTransaction then (next true).stop n (opened c.current) else (next false).stop n c
  | rollback _, 0, c => c
  | rollback next, n + 1, c => next.stop n c.rollback

/-- The result and the state of a run from `s` that meets no fault. -/
def finish (a : Script σ) (s : σ) : Bool × Conn σ := a.run .healthy (opened s)

/-- What an interruption after `n` statements leaves. -/
def interrupted (a : Script σ) (n : Nat) (s : σ) : σ := (a.stop n (opened s)).durable

/-- `b` goes on with the result of `a`. -/
def bind : Script σ → (Bool → Script σ) → Script σ
  | done ok, b => b ok
  | look next, b => look fun s => (next s).bind b
  | exec f next, b => exec f fun ok => (next ok).bind b
  | begin next, b => begin fun ok => (next ok).bind b
  | commit next, b => commit fun ok => (next ok).bind b
  | rollback next, b => rollback (next.bind b)

/-- All statements in turn, whatever becomes of each. -/
def each : List (σ → Option σ) → Script σ
  | [] => done true
  | f :: fs => exec f fun _ => each fs

/-- The statements up to the first that fails. -/
def all : List (σ → Option σ) → Script σ
  | [] => done true
  | f :: fs => exec f fun ok => if ok then all fs else done false

/-- The statements between BEGIN and COMMIT, or ROLLBACK where one fails. -/
def transaction (fs : List (σ → Option σ)) : Script σ :=
  begin fun ok =>
    if ok then (all fs).bind fun ok => if ok then commit done else rollback (done false) else done false

end Script

/-- A statement that is refused changes nothing. -/
def attempt (s : σ) (f : σ → Option σ) : σ := (f s).getD s

/-- All statements, if none is refused. -/
def applyAll (fs : List (σ → Option σ)) (s : σ) : Option σ := fs.foldlM (fun s f => f s) s

namespace Script

/-! ### A transaction is all or nothing -/

private theorem run_all_bind (next : Bool → Script σ) (d : σ) (fs : List (σ → Option σ)) (r : Faults) (s : σ) :
    ∃ r' : Faults, r'.commit = r.commit ∧
      ((∃ s', applyAll fs s = some s' ∧ ((all fs).bind next).run r ⟨s, d, true⟩ = (next true).run r' ⟨s', d, true⟩) ∨
        ∃ c : Conn σ, c.durable = d ∧ ((all fs).bind next).run r ⟨s, d, true⟩ = (next false).run r' c) := by
  induction fs generalizing r s with
  | nil => exact ⟨r, rfl, .inl ⟨s, rfl, rfl⟩⟩
  | cons f fs ih =>
    cases hr : r.statement 0 with
    | failed => exact ⟨r.tail, rfl, .inr ⟨⟨s, d, true⟩, rfl, by simp [all, bind, run, hr]⟩⟩
    | rolledBack => exact ⟨r.tail, rfl, .inr ⟨opened d, rfl, by simp [all, bind, run, hr, Conn.rollback]⟩⟩
    | done =>
      cases hf : f s with
      | none => exact ⟨r.tail, rfl, .inr ⟨⟨s, d, true⟩, rfl, by simp [all, bind, run, hr, hf]⟩⟩
      | some t =>
        obtain ⟨r', hc, h⟩ := ih r.tail t
        have hrun : ((all (f :: fs)).bind next).run r ⟨s, d, true⟩ = ((all fs).bind next).run r.tail ⟨t, d, true⟩ := by
          simp [all, bind, run, hr, hf, Conn.write]
        have happly : applyAll (f :: fs) s = applyAll fs t := by simp [applyAll, hf]
        rw [hrun, happly]
        exact ⟨r', hc, h⟩

/-- A transaction that succeeds has done all its statements; one that fails has done nothing, if the
storage layer did not leave it open at its commit. -/
theorem run_transaction (fs : List (σ → Option σ)) (r : Faults) (s : σ) :
    (∃ s', applyAll fs s = some s' ∧ (transaction fs).run r (opened s) = (true, opened s')) ∨
      ∃ c, (transaction fs).run r (opened s) = (false, c) ∧ (r.commit ≠ .failed → c = opened s) := by
  cases hr : r.statement 0 with
  | failed => exact .inr ⟨opened s, by simp [transaction, run, hr], fun _ => rfl⟩
  | rolledBack => exact .inr ⟨opened s, by simp [transaction, run, hr, Conn.rollback, opened], fun _ => rfl⟩
  | done =>
    have hbegin : (transaction fs).run r (opened s) = ((all fs).bind fun ok =>
        if ok then commit done else rollback (done false)).run r.tail ⟨s, s, true⟩ := by
      simp [transaction, run, hr, opened]
    rw [hbegin]
    obtain ⟨r', hc, ⟨s', happly, hrun⟩ | ⟨c, hd, hrun⟩⟩ :=
      run_all_bind (fun ok => if ok then commit done else rollback (done false)) s fs r.tail s
    · rw [hrun]
      have hc : r'.commit = r.commit := hc
      cases hcommit : r.commit with
      | done => exact .inl ⟨s', happly, by simp [run, hc, hcommit]⟩
      | failed => exact .inr ⟨⟨s', s, true⟩, by simp [run, hc, hcommit], fun h => absurd rfl h⟩
      | rolledBack => exact .inr ⟨opened s, by simp [run, hc, hcommit, Conn.rollback], fun _ => rfl⟩
    · rw [hrun]
      exact .inr ⟨opened s, by simp [run, Conn.rollback, hd], fun _ => rfl⟩

/-! ### Statements outside a transaction -/

theorem run_look_opened (next : σ → Script σ) (r : Faults) (s : σ) :
    (look next).run r (opened s) = (next s).run r (opened s) := rfl

/-- A refused statement changes nothing. -/
theorem run_exec_opened (f : σ → Option σ) (next : Bool → Script σ) (r : Faults) (s : σ) :
    (exec f next).run r (opened s) =
      if r.statement 0 = .done then (next (f s).isSome).run r.tail (opened (attempt s f))
      else (next false).run r.tail (opened s) := by
  cases hr : r.statement 0 with
  | failed => simp [run, hr]
  | rolledBack => simp [run, hr, Conn.rollback, opened]
  | done => cases hf : f s <;> simp [run, hr, hf, opened, attempt, Conn.write]

/-- Statements that change nothing only use up their replies. -/
theorem run_each_bind {fs : List (σ → Option σ)} {s : σ} (h : ∀ f ∈ fs, f s = some s)
    (b : Bool → Script σ) (r : Faults) :
    ((each fs).bind b).run r (opened s) = (b true).run (r.drop fs.length) (opened s) := by
  induction fs generalizing r with
  | nil => simp [each, bind, Faults.drop]
  | cons f fs ih =>
    have hf : attempt s f = s := by simp [attempt, h f List.mem_cons_self]
    have hdrop : r.tail.drop fs.length = r.drop (fs.length + 1) := by
      simp only [Faults.drop, Faults.tail, Faults.mk.injEq, and_true]
      exact funext fun k => congrArg r.statement (by omega)
    have hrest := ih (fun g hg => h g (List.mem_cons_of_mem f hg)) r.tail
    rw [each, bind, run_exec_opened, hf, hrest, ite_self, hdrop]
    rfl

/-! ### Runs without faults, and their interruptions -/

private theorem run_bind (a : Script σ) (b : Bool → Script σ) (c : Conn σ) :
    (a.bind b).run .healthy c = (b (a.run .healthy c).1).run .healthy (a.run .healthy c).2 := by
  induction a generalizing c with
  | done ok => rfl
  | look next ih => exact ih _ _
  | exec f next ih =>
    simp only [bind, run, Faults.healthy]
    cases f c.current <;> exact ih _ _
  | begin next ih =>
    simp only [bind, run, Faults.healthy]
    split <;> exact ih _ _
  | commit next ih =>
    simp only [bind, run, Faults.healthy]
    split <;> exact ih _ _
  | rollback next ih => exact ih _

private theorem stop_bind (a : Script σ) (b : Bool → Script σ) (n : Nat) (c : Conn σ) :
    (a.bind b).stop n c = a.stop n c ∨
      ∃ m, (a.bind b).stop n c = (b (a.run .healthy c).1).stop m (a.run .healthy c).2 := by
  induction a generalizing n c with
  | done ok => exact .inr ⟨n, rfl⟩
  | look next ih => exact ih _ _ _
  | exec f next ih =>
    cases n with
    | zero => exact .inl rfl
    | succ n =>
      simp only [bind, stop, run, Faults.healthy]
      cases f c.current <;> exact ih _ _ _
  | begin next ih =>
    cases n with
    | zero => exact .inl rfl
    | succ n =>
      simp only [bind, stop, run, Faults.healthy]
      split <;> exact ih _ _ _
  | commit next ih =>
    cases n with
    | zero => exact .inl rfl
    | succ n =>
      simp only [bind, stop, run, Faults.healthy]
      split <;> exact ih _ _ _
  | rollback next ih =>
    cases n with
    | zero => exact .inl rfl
    | succ n => exact ih _ _

/-- From `s` the script keeps `I` wherever it is interrupted, and ends outside a transaction. -/
structure KeepsAt (I : σ → Prop) (a : Script σ) (s : σ) : Prop where
  interrupted : ∀ n, I (a.interrupted n s)
  finish : ∃ ok s', a.finish s = (ok, opened s') ∧ I s'

variable {I : σ → Prop}

theorem KeepsAt.imp {J : σ → Prop} {a : Script σ} {s : σ} (h : KeepsAt I a s) (hij : ∀ s, I s → J s) :
    KeepsAt J a s := by
  obtain ⟨ok, s', hrun, hs'⟩ := h.finish
  exact ⟨fun n => hij _ (h.interrupted n), ok, s', hrun, hij _ hs'⟩

theorem keepsAt_done {s : σ} (h : I s) (ok : Bool) : KeepsAt I (done ok) s := ⟨fun _ => h, ok, s, rfl, h⟩

theorem keepsAt_look {s : σ} {next : σ → Script σ} (h : KeepsAt I (next s) s) : KeepsAt I (look next) s :=
  ⟨h.interrupted, h.finish⟩

theorem KeepsAt.bind_of_finish {s s' : σ} {a : Script σ} {b : Bool → Script σ} {ok : Bool} (h : KeepsAt I a s)
    (hrun : a.finish s = (ok, opened s')) (hb : KeepsAt I (b ok) s') : KeepsAt I (a.bind b) s := by
  have hrun : a.run .healthy (opened s) = (ok, opened s') := hrun
  refine ⟨fun n => ?_, ?_⟩
  · rcases stop_bind a b n (opened s) with heq | ⟨m, heq⟩
    · rw [Script.interrupted, heq]
      exact h.interrupted n
    · rw [Script.interrupted, heq, hrun]
      exact hb.interrupted m
  · obtain ⟨ok', t, hfin, ht⟩ := hb.finish
    exact ⟨ok', t, by rw [Script.finish, run_bind, hrun]; exact hfin, ht⟩

theorem KeepsAt.bind {s : σ} {a : Script σ} {b : Bool → Script σ} (h : KeepsAt I a s)
    (hb : ∀ ok s', I s' → KeepsAt I (b ok) s') : KeepsAt I (a.bind b) s := by
  obtain ⟨ok, s', hrun, hs'⟩ := h.finish
  exact h.bind_of_finish hrun (hb ok s' hs')

theorem interrupted_look (next : σ → Script σ) (n : Nat) (s : σ) :
    (look next).interrupted n s = (next s).interrupted n s := rfl

theorem interrupted_exec {s t : σ} {f : σ → Option σ} (h : f s = some t) (next : Bool → Script σ) (n : Nat) :
    (exec f next).interrupted (n + 1) s = (next true).interrupted n t := by
  simp [Script.interrupted, stop, opened, h, Conn.write]

theorem keepsAt_exec {s : σ} {f : σ → Option σ} {next : Bool → Script σ} (h : I s)
    (hsome : ∀ t, f s = some t → KeepsAt I (next true) t) (hnone : f s = none → KeepsAt I (next false) s) :
    KeepsAt I (exec f next) s := by
  cases hf : f s with
  | none =>
    refine ⟨fun n => ?_, ?_⟩
    · cases n with
      | zero => exact h
      | succ n =>
        have heq : (exec f next).interrupted (n + 1) s = (next false).interrupted n s := by
          simp [Script.interrupted, stop, opened, hf]
        exact heq ▸ (hnone hf).interrupted n
    · have heq : (exec f next).finish s = (next false).finish s := by
        simp only [Script.finish, run, Faults.healthy, opened, hf]
        rfl
      exact heq ▸ (hnone hf).finish
  | some t =>
    refine ⟨fun n => ?_, ?_⟩
    · cases n with
      | zero => exact h
      | succ n =>
        rw [interrupted_exec hf]
        exact (hsome t hf).interrupted n
    · have heq : (exec f next).finish s = (next true).finish t := by
        simp only [Script.finish, run, Faults.healthy, opened, hf, Conn.write]
        rfl
      exact heq ▸ (hsome t hf).finish

/-- Each statement keeps `I` when it succeeds. -/
def Keeps (I : σ → Prop) (fs : List (σ → Option σ)) : Prop := ∀ f ∈ fs, ∀ s t, I s → f s = some t → I t

theorem keepsAt_each {fs : List (σ → Option σ)} (hfs : Keeps I fs) {s : σ} (h : I s) : KeepsAt I (each fs) s := by
  induction fs generalizing s with
  | nil => exact keepsAt_done h true
  | cons f fs ih =>
    have hrest : Keeps I fs := fun g hg => hfs g (List.mem_cons_of_mem _ hg)
    exact keepsAt_exec h (fun t ht => ih hrest (hfs f List.mem_cons_self s t h ht)) fun _ => ih hrest h

theorem keepsAt_all {fs : List (σ → Option σ)} (hfs : Keeps I fs) {s : σ} (h : I s) : KeepsAt I (all fs) s := by
  induction fs generalizing s with
  | nil => exact keepsAt_done h true
  | cons f fs ih =>
    have hrest : Keeps I fs := fun g hg => hfs g (List.mem_cons_of_mem _ hg)
    exact keepsAt_exec h (fun t ht => ih hrest (hfs f List.mem_cons_self s t h ht)) fun _ => keepsAt_done h false

private theorem stop_rollback_bind (fs : List (σ → Option σ)) (n : Nat) (s d : σ) :
    (((all fs).bind fun ok => if ok then commit done else rollback (done false)).stop n ⟨s, d, true⟩).durable = d ∨
      applyAll fs s =
        some (((all fs).bind fun ok => if ok then commit done else rollback (done false)).stop n
          ⟨s, d, true⟩).durable := by
  induction fs generalizing n s with
  | nil =>
    cases n with
    | zero => exact .inl rfl
    | succ n => exact .inr rfl
  | cons f fs ih =>
    cases n with
    | zero => exact .inl rfl
    | succ n =>
      cases hf : f s with
      | none =>
        refine .inl ?_
        cases n <;> simp [all, bind, stop, hf, Conn.rollback, opened]
      | some t =>
        have hstep : (((all (f :: fs)).bind fun ok => if ok then commit done else rollback (done false)).stop (n + 1)
            ⟨s, d, true⟩) = ((all fs).bind fun ok => if ok then commit done else rollback (done false)).stop n
              ⟨t, d, true⟩ := by
          simp [all, bind, stop, hf, Conn.write]
        have happly : applyAll (f :: fs) s = applyAll fs t := by simp [applyAll, hf]
        rw [hstep, happly]
        exact ih n t

/-- An interrupted transaction has done all or nothing. -/
theorem keepsAt_transaction {fs : List (σ → Option σ)} {s : σ} (h : I s) (hall : ∀ t, applyAll fs s = some t → I t) :
    KeepsAt I (transaction fs) s := by
  refine ⟨fun n => ?_, ?_⟩
  · cases n with
    | zero => exact h
    | succ n =>
      rcases stop_rollback_bind fs n s s with heq | heq
      · rw [show (transaction fs).interrupted (n + 1) s = s from heq]
        exact h
      · exact hall _ heq
  · rcases run_transaction fs .healthy s with ⟨t, ht, hrun⟩ | ⟨c, hrun, hc⟩
    · exact ⟨true, t, hrun, hall t ht⟩
    · exact ⟨false, s, by rw [finish, hrun, hc (by decide)], h⟩

/-! ### What a run computes -/

theorem finish_bind {a : Script σ} {b : Bool → Script σ} {s s' : σ} {ok : Bool} (h : a.finish s = (ok, opened s')) :
    (a.bind b).finish s = (b ok).finish s' := by
  have h : a.run .healthy (opened s) = (ok, opened s') := h
  rw [finish, run_bind, h]
  rfl

private theorem finish_exec (f : σ → Option σ) (next : Bool → Script σ) (s : σ) :
    (exec f next).finish s = (next (f s).isSome).finish (attempt s f) := by
  simp only [finish, run, Faults.healthy, attempt]
  cases hf : f s <;> simp only [opened, hf, Conn.write, Option.getD_some, Option.getD_none, Option.isSome_some,
    Option.isSome_none, Bool.false_eq_true, if_false] <;> rfl

theorem finish_each (fs : List (σ → Option σ)) (s : σ) : (each fs).finish s = (true, opened (fs.foldl attempt s)) := by
  induction fs generalizing s with
  | nil => rfl
  | cons f fs ih => rw [each, finish_exec, ih, List.foldl_cons]

theorem finish_all {fs : List (σ → Option σ)} {s t : σ} (h : applyAll fs s = some t) :
    (all fs).finish s = (true, opened t) := by
  induction fs generalizing s with
  | nil =>
    obtain rfl := Option.some.inj h
    rfl
  | cons f fs ih =>
    cases hf : f s with
    | none => simp [applyAll, hf] at h
    | some u =>
      have happly : applyAll (f :: fs) s = applyAll fs u := by simp [applyAll, hf]
      rw [happly] at h
      rw [all, finish_exec, hf, attempt, hf]
      exact ih h

theorem finish_transaction {fs : List (σ → Option σ)} {s t : σ} (h : applyAll fs s = some t) :
    (transaction fs).finish s = (true, opened t) := by
  suffices hall : ∀ (d u : σ), applyAll fs u = some t → ((all fs).bind fun ok =>
      if ok then commit done else rollback (done false)).run .healthy ⟨u, d, true⟩ = (true, opened t) from hall s s h
  clear h
  induction fs with
  | nil =>
    rintro d u h
    obtain rfl := Option.some.inj h
    rfl
  | cons f fs ih =>
    intro d u h
    cases hf : f u with
    | none => simp [applyAll, hf] at h
    | some v =>
      have happly : applyAll (f :: fs) u = applyAll fs v := by simp [applyAll, hf]
      have hstep : ((all (f :: fs)).bind fun ok => if ok then commit done else rollback (done false)).run .healthy
          ⟨u, d, true⟩ =
          ((all fs).bind fun ok => if ok then commit done else rollback (done false)).run .healthy ⟨v, d, true⟩ := by
        simp only [all, bind, run, Faults.healthy, hf, Conn.write, if_true]
        rfl
      rw [hstep]
      exact ih d v (happly ▸ h)

end Script
end Scripts
