import Bdtrace.Session.RowOwners
import Bdtrace.Tracer.TaskFamilies
import Mathlib.Data.Finset.Max

/-! Parent attribution: which process the ppid of a row names, whatever is reused and re-imaged. -/
namespace Bdtrace

/-- The call begins, ends or replaces no process in the session's maps. -/
def SessionCall.quiet : SessionCall → Bool
  | .processStart _ | .deleteProcess _ => false
  | _ => true

theorem SessionCall.AccessOf.quiet {pid : Int} {c : SessionCall} (h : c.AccessOf pid) : c.quiet = true := by
  cases c with
  | processStart rec => exact h.elim
  | deleteProcess pid => exact h.elim
  | _ => rfl

theorem Book.note_quiet {c : SessionCall} (h : c.quiet = true) (b : Book) : b.note c = b := by
  cases c with
  | processStart rec => cases h
  | deleteProcess pid => cases h
  | _ => rfl

def Tracing.book (s : Tracing) : Book := Book.noteAll {} s.calls

/-- Every fork event is reported before the child execs. -/
def TaskWorld.ForksFirst (w : TaskWorld) : TaskEvent → Prop
  | .report t status _ => status = .stopped .exec → t ∈ w.reported
  | _ => True

instance (w : TaskWorld) : (e : TaskEvent) → Decidable (w.ForksFirst e)
  | .report t status _ => inferInstanceAs (Decidable (status = .stopped .exec → t ∈ w.reported))
  | .spawn _ | .forkEvent .. | .vanish _ => inferInstanceAs (Decidable True)

namespace Family
variable (F : Family)

/-- The present generation of the task's pid is the task's: its fork event was reported or its pid was
not in use before, and no later holder was reported. -/
def Current (w : TaskWorld) (t : Nat) : Prop :=
  (t ∈ w.reported ∨ F.rank t = 0) ∧ ∀ d ∈ w.reported, F.pid d = F.pid t → d ≤ t

instance (w : TaskWorld) (t : Nat) : Decidable (F.Current w t) := inferInstanceAs (Decidable (_ ∧ _))

/-- Where a parent's pid is translated, it still stands for the parent, and the holders of a pid are
reported in turn, at most 214 of them. -/
def Translates (w : TaskWorld) : TaskEvent → Prop
  | .forkEvent t c .. => F.Current w t ∧ (∀ d < c, F.pid d = F.pid c → d ∈ w.reported) ∧ F.rank c ≤ 213
  | .report t status _ => status = .stopped .exec → 0 < t → F.Current w (F.parent t)
  | _ => True

instance (w : TaskWorld) : (e : TaskEvent) → Decidable (F.Translates w e)
  | .forkEvent t c .. => inferInstanceAs (Decidable
      (F.Current w t ∧ (∀ d < c, F.pid d = F.pid c → d ∈ w.reported) ∧ F.rank c ≤ 213))
  | .report t status _ => inferInstanceAs (Decidable (status = .stopped .exec → 0 < t → F.Current w (F.parent t)))
  | .spawn _ | .vanish _ => inferInstanceAs (Decidable True)

/-- A row with these ids is that of a reported task under the process that forked it. -/
def Parentage (reported : Finset Nat) (x y : Int) : Prop := ∃ c ∈ reported, x = F.id c ∧ y = F.ppidOf c

/-- What the calls tell the session agrees with the tasks reported. -/
structure Booked (reported : Finset Nat) (b : Book) (cs : List SessionCall) : Prop where
  admitted : b.Admitted cs
  pending : (b.noteAll cs).pending = none
  begun : ∀ p, (b.noteAll cs).begun p = (reported.filter fun c => F.pid c = p).card
  starts : Book.Along (Book.StartsWith (F.Parentage reported)) b cs

/-- The invariant of the runs that translate every parent in time. -/
structure Attributed (s : Tracing) : Prop where
  sane : F.Sane s.world
  closed : ∀ c ∈ s.world.reported, ∀ d < c, F.pid d = F.pid c → d ∈ s.world.reported
  ranks : ∀ c ∈ s.world.reported, F.rank c ≤ 213
  parents : ∀ c ∈ s.world.reported, 0 < c → F.parent c ∈ s.world.reported ∨ F.rank (F.parent c) = 0
  booked : F.Booked s.world.reported {} s.calls
  procs : ∀ c ∈ s.world.reported, c ∉ s.world.ended →
    ∃ ps, s.backend.procs (F.pid c) = some ps ∧ ps.ppid = F.rawPpid c

variable {F}

theorem Booked.append {rs rs' : Finset Nat} {b : Book} {cs ds : List SessionCall} (h : F.Booked rs b cs)
    (hrs : rs ⊆ rs') (h' : F.Booked rs' (b.noteAll cs) ds) : F.Booked rs' b (cs ++ ds) := by
  refine ⟨(Book.along_append _ _ _).mpr ⟨h.admitted, h'.admitted⟩, ?_, fun p => ?_,
    (Book.along_append _ _ _).mpr ⟨Runs.Along.imp (fun b' c hc => ?_) h.starts, h'.starts⟩⟩
  · rw [Book.noteAll_append]
    exact h'.pending
  · rw [Book.noteAll_append]
    exact h'.begun p
  · cases c with
    | processStart rec =>
      obtain ⟨t, ht, hx, hy⟩ := hc
      exact ⟨t, hrs ht, hx, hy⟩
    | _ => trivial

/-- Quiet calls add nothing to the book. -/
theorem Booked.quiet {rs : Finset Nat} {b : Book} (hp : b.pending = none)
    (hb : ∀ p, b.begun p = (rs.filter fun c => F.pid c = p).card) {cs : List SessionCall}
    (h : ∀ c ∈ cs, c.quiet = true) : F.Booked rs b cs ∧ b.noteAll cs = b := by
  induction cs with
  | nil => exact ⟨⟨trivial, hp, hb, trivial⟩, rfl⟩
  | cons c cs ih =>
    obtain ⟨⟨hadm, hpend, hbeg, hst⟩, hnote⟩ := ih fun d hd => h d (List.mem_cons_of_mem _ hd)
    have hc := h c List.mem_cons_self
    have hn := Book.note_quiet hc b
    refine ⟨⟨⟨?_, hn.symm ▸ hadm⟩, ?_, ?_, ?_, hn.symm ▸ hst⟩, ?_⟩
    · cases c with
      | processStart rec => cases hc
      | deleteProcess pid => cases hc
      | _ => exact hp
    · rw [Book.noteAll_cons, hn]
      exact hpend
    · rw [Book.noteAll_cons, hn]
      exact hbeg
    · cases c with
      | processStart rec => cases hc
      | _ => trivial
    · rw [Book.noteAll_cons, hn, hnote]

namespace Attributed
variable {s : Tracing} (h : F.Attributed s)
include h

/-- The reported holders of a reported task's pid, when it is the last of them. -/
private theorem begun_current {t : Nat} (ht : t ∈ s.world.reported)
    (hlast : ∀ d ∈ s.world.reported, F.pid d = F.pid t → d ≤ t) :
    s.book.begun (F.pid t) = F.rank t + 1 := by
  have hset : (s.world.reported.filter fun d => F.pid d = F.pid t) =
      insert t ((Finset.range t).filter fun d => F.pid d = F.pid t) := by
    ext d
    simp only [Finset.mem_filter, Finset.mem_insert, Finset.mem_range]
    constructor
    · rintro ⟨hd, hpid⟩
      rcases (hlast d hd hpid).eq_or_lt with rfl | hlt
      · exact .inl rfl
      · exact .inr ⟨hlt, hpid⟩
    · rintro (rfl | ⟨hlt, hpid⟩)
      · exact ⟨ht, rfl⟩
      · exact ⟨h.closed t ht d hlt hpid, hpid⟩
  rw [Tracing.book, h.booked.begun, hset, Finset.card_insert_of_notMem (by simp), rank]

/-- The book counts every reported task. -/
theorem begun {t : Nat} (ht : t ∈ s.world.reported) : s.book.Begun (F.incarnation t) := by
  have hsub : insert t ((Finset.range t).filter fun d => F.pid d = F.pid t) ⊆
      s.world.reported.filter fun d => F.pid d = F.pid t := by
    intro d hd
    simp only [Finset.mem_filter, Finset.mem_insert, Finset.mem_range] at hd ⊢
    rcases hd with rfl | ⟨hlt, hpid⟩
    · exact ⟨ht, rfl⟩
    · exact ⟨h.closed t ht d hlt hpid, hpid⟩
  have hcard := Finset.card_le_card hsub
  rw [Finset.card_insert_of_notMem (by simp), ← h.booked.begun] at hcard
  exact hcard

/-- The pid of a current task stands for it. -/
theorem current {t : Nat} (ht : F.Current s.world t) : s.book.current (F.pid t) = F.incarnation t := by
  obtain ⟨hrep, hlast⟩ := ht
  by_cases hm : t ∈ s.world.reported
  · rw [Book.current, h.begun_current hm hlast, Nat.add_sub_cancel, incarnation]
  · have hrank := hrep.resolve_left hm
    have hnone : (s.world.reported.filter fun d => F.pid d = F.pid t) = ∅ := by
      refine Finset.filter_eq_empty_iff.mpr fun d hd hpid => ?_
      have hlt : d < t := lt_of_le_of_ne (hlast d hd hpid) fun heq => hm (heq ▸ hd)
      have := F.rank_lt hlt hpid
      omega
    have hb : s.book.begun (F.pid t) = 0 := by
      rw [Tracing.book, h.booked.begun, hnone, Finset.card_empty]
    rw [Book.current, hb, incarnation, hrank]

private theorem current_tracer : (s.book.current F.tracer).id = F.tracer := by
  have hnone : (s.world.reported.filter fun d => F.pid d = F.tracer) = ∅ :=
    Finset.filter_eq_empty_iff.mpr fun d _ => F.pid_ne_tracer d
  have hb : s.book.begun F.tracer = 0 := by
    rw [Tracing.book, h.booked.begun, hnone, Finset.card_empty]
  rw [Book.current, hb]
  rfl

theorem current_of_active {t : Nat} (ht : s.world.Active t) (hrep : t ∈ s.world.reported) : F.Current s.world t :=
  ⟨.inl hrep, fun _ hd hpid => h.sane.last ht (h.sane.reported hd) hpid⟩

/-- The raw pid of the parent translates to the process that forked the task. -/
private theorem current_rawPpid {t : Nat} (ht : 0 < t → F.Current s.world (F.parent t)) :
    (s.book.current (F.rawPpid t)).id = F.ppidOf t := by
  rcases Nat.eq_zero_or_pos t with rfl | hpos
  · simp only [rawPpid, ppidOf, if_true]
    exact h.current_tracer
  · simp only [rawPpid, ppidOf, Nat.ne_of_gt hpos, if_false]
    rw [h.current (ht hpos), id]

theorem pending : s.book.pending = none := h.booked.pending

theorem tracks {t : TraceSession} (ht : t = (({} : TraceSession).calls s.calls).1) : t.Tracks s.book :=
  ht ▸ TraceSession.calls_tracks TraceSession.tracks_fresh h.booked.admitted

/-- At its fork event the session has seen the earlier holders of the child's pid and no others. -/
private theorem earlier_holders {t c : Nat} {cwd cmdline : Str} {view : TraceeView}
    (hp : F.Possible s.world (.forkEvent t c cwd cmdline view))
    (ht : F.Translates s.world (.forkEvent t c cwd cmdline view)) :
    (s.world.reported.filter fun d => F.pid d = F.pid c) = (Finset.range c).filter fun d => F.pid d = F.pid c := by
  have hnew := hp.2.2.2.1
  ext d
  simp only [Finset.mem_filter, Finset.mem_range]
  refine and_congr_left fun hdc => ⟨fun hd => ?_, fun hlt => ht.2.1 d hlt hdc⟩
  rcases Nat.lt_trichotomy d c with hlt | rfl | hgt
  · exact hlt
  · exact absurd hd hnew
  · exact absurd (h.closed d hd c hgt hdc.symm) hnew

theorem note_fork {t c : Nat} {cwd cmdline : Str} {view : TraceeView}
    (hp : F.Possible s.world (.forkEvent t c cwd cmdline view))
    (ht : F.Translates s.world (.forkEvent t c cwd cmdline view)) {rec : ProcessRecord} (hpid : rec.pid = F.pid c) :
    s.book.note (.processStart rec) = ⟨Function.update s.book.begun (F.pid c) (F.rank c + 1), s.book.pending⟩ := by
  have hbegun : s.book.begun (F.pid c) = F.rank c := by
    rw [Tracing.book, h.booked.begun, h.earlier_holders hp ht, rank]
  simp only [Book.note, h.pending, reduceCtorEq, if_false, hpid, hbegun]

/-- A reported fork event begins the next process of the child's pid. -/
private theorem booked_fork {t c : Nat} {cwd cmdline : Str} {view : TraceeView}
    (hp : F.Possible s.world (.forkEvent t c cwd cmdline view))
    (ht : F.Translates s.world (.forkEvent t c cwd cmdline view)) {rec : ProcessRecord} (hpid : rec.pid = F.pid c)
    (hppid : rec.ppid = F.pid t) : F.Booked (insert c s.world.reported) s.book [.processStart rec] := by
  have hnote := h.note_fork hp ht hpid
  have hset := h.earlier_holders hp ht
  have hne := h.sane.pid_ne hp
  obtain ⟨hc, hpar, hspawned, hnew, hactive⟩ := hp
  refine ⟨⟨.inl h.pending, trivial⟩, ?_, fun p => ?_, ⟨⟨c, Finset.mem_insert_self c _, ?_, ?_⟩, trivial⟩⟩
  · rw [Book.noteAll_cons, hnote]
    exact h.pending
  · rw [Book.noteAll_cons, Book.noteAll_nil, hnote, Finset.filter_insert]
    simp only
    by_cases hcp : F.pid c = p
    · subst hcp
      rw [if_pos rfl, Finset.card_insert_of_notMem fun hm => hnew (Finset.mem_filter.mp hm).1,
        Function.update_self, hset,
        rank]
    · rw [if_neg hcp, Function.update_of_ne (Ne.symm hcp), Tracing.book, h.booked.begun]
  · rw [hnote, hpid]
    simp only [Book.current, Function.update_self, Nat.add_sub_cancel]
    rfl
  · rw [hnote, hppid]
    simp only [Book.current, Function.update_of_ne hne.symm, ppidOf, Nat.ne_of_gt hc, if_false, hpar]
    exact congrArg Incarnation.id (h.current ht.1)

/-- An exec starts the task's process again under the process that forked it. -/
private theorem booked_exec {t : Nat} (hactive : s.world.Active t) (hrep : t ∈ s.world.reported)
    (ht : 0 < t → F.Current s.world (F.parent t)) {rec : ProcessRecord} (hpid : rec.pid = F.pid t)
    (hppid : rec.ppid = F.rawPpid t) :
    F.Booked s.world.reported s.book [.deleteProcess (F.pid t), .processStart rec] := by
  have hbegun : 0 < s.book.begun (F.pid t) := by
    have := h.begun_current hrep (h.current_of_active hactive hrep).2
    omega
  have hdone : (s.book.note (.deleteProcess (F.pid t))).note (.processStart rec) = s.book := by
    have hpend := h.pending
    simp only [Book.note, hpid, if_true]
    rw [← hpend]
  refine ⟨⟨⟨h.pending, hbegun⟩, .inr ?_, trivial⟩, ?_, ?_, ⟨trivial, ⟨t, hrep, ?_, ?_⟩, trivial⟩⟩
  · simp only [Book.note, hpid]
  · rw [Book.noteAll_cons, Book.noteAll_cons, Book.noteAll_nil, hdone]
    exact h.pending
  · rw [Book.noteAll_cons, Book.noteAll_cons, Book.noteAll_nil, hdone]
    exact h.booked.begun
  · rw [hdone, hpid, h.current (h.current_of_active hactive hrep), id]
  · rw [hdone, hppid]
    exact h.current_rawPpid ht

/-- The tracer's entry of a reported task names the pid of the task that forked it. -/
private theorem entry_ppid {t : Nat} (hactive : s.world.Active t) (hrep : t ∈ s.world.reported) :
    (s.backend.entry (F.pid t)).ppid = F.rawPpid t := by
  obtain ⟨ps, hps, hppid⟩ := h.procs t hrep hactive.2
  rw [PtraceBackend.entry, hps, Option.getD_some, hppid]

private theorem procs_fork {t c : Nat} {cwd cmdline : Str} {view : TraceeView}
    (hp : F.Possible s.world (.forkEvent t c cwd cmdline view)) : ∀ u ∈ insert c s.world.reported, u ∉ s.world.ended →
      ∃ ps, (F.handle s.backend (.forkEvent t c cwd cmdline view)).1.procs (F.pid u) = some ps ∧
        ps.ppid = F.rawPpid u := by
  have hzero : F.pid c ≠ 0 := (F.pid_range c).1.ne'
  obtain ⟨-, ⟨ps, hppid, hps⟩, hparent, hrest⟩ :=
    s.backend.handleReport_fork view (F.pid t) hzero (h.sane.pid_ne hp) cwd
    cmdline
  obtain ⟨hc, hpar, hspawned, hnew, hactive⟩ := hp
  intro u hu hlive
  rcases Finset.mem_insert.mp hu with rfl | hu
  · refine ⟨ps, hps, ?_⟩
    rw [hppid, rawPpid, if_neg hc.ne', hpar]
  · have hua : s.world.Active u := ⟨h.sane.reported hu, hlive⟩
    by_cases hut : F.pid u = F.pid t
    · obtain rfl := h.sane.unique hua hactive hut
      exact ⟨_, hparent, h.entry_ppid hua hu⟩
    · have huc : F.pid u ≠ F.pid c := fun huc => by
        rcases (h.sane.last hua hspawned huc.symm).eq_or_lt with rfl | hlt
        · exact hnew hu
        · exact hnew (h.closed u hu c hlt huc.symm)
      obtain ⟨pu, hpu, hpp⟩ := h.procs u hu hlive
      exact ⟨pu, (hrest _ hut huc).trans hpu, hpp⟩

private theorem procs_report {t : Nat} {status : WaitStatus} {view : TraceeView}
    (hp : F.Possible s.world (.report t status view)) : ∀ u ∈ s.world.reported,
      u ∉ (s.world.step (.report t status view)).ended →
      ∃ ps, (F.handle s.backend (.report t status view)).1.procs (F.pid u) = some ps ∧ ps.ppid = F.rawPpid u := by
  obtain ⟨hactive, hfork⟩ := hp
  intro u hu hlive
  have hold : u ∉ s.world.ended := fun hm => hlive (by
    simp only [TaskWorld.step]
    split
    · exact Finset.mem_insert_of_mem hm
    · exact hm)
  have hua : s.world.Active u := ⟨h.sane.reported hu, hold⟩
  obtain ⟨pu, hpu, hpp⟩ := h.procs u hu hold
  cases hends : status.ends with
  | true =>
    obtain ⟨x, -, -, hprocs⟩ := s.backend.handleReport_ends view (F.pid t) hends
    have hut : F.pid u ≠ F.pid t := fun hut => hlive (by
      obtain rfl := h.sane.unique hua hactive hut
      simp [TaskWorld.step, hends])
    refine ⟨pu, ?_, hpp⟩
    rw [handle, hprocs, Function.update_of_ne hut, hpu]
  | false =>
    cases status with
    | exited code => cases hends
    | signaled sig => cases hends
    | stopped stop =>
      obtain ⟨ps, hppid, hprocs⟩ := s.backend.handleReport_own view (F.pid t) hfork
      rw [handle, hprocs]
      by_cases hut : F.pid u = F.pid t
      · obtain rfl := h.sane.unique hua hactive hut
        exact ⟨ps, Function.update_self .., hppid.trans (h.entry_ppid hua hu)⟩
      · exact ⟨pu, (Function.update_of_ne hut _ _).trans hpu, hpp⟩

/-- A report other than a fork event leaves the book in step with the tasks. -/
private theorem booked_report {t : Nat} {status : WaitStatus} {view : TraceeView}
    (hp : F.Possible s.world (.report t status view)) (hf : s.world.ForksFirst (.report t status view))
    (ht : F.Translates s.world (.report t status view)) :
    F.Booked s.world.reported s.book (F.handle s.backend (.report t status view)).2 := by
  obtain ⟨hactive, hfork⟩ := hp
  have hquiet : ∀ {cs : List SessionCall}, (∀ c ∈ cs, c.quiet = true) → F.Booked s.world.reported s.book cs ∧
      s.book.noteAll cs = s.book :=
    fun hcs => Booked.quiet h.pending h.booked.begun hcs
  cases hends : status.ends with
  | true =>
    obtain ⟨x, -, hcalls, -⟩ := s.backend.handleReport_ends view (F.pid t) hends
    rw [handle, hcalls]
    exact (hquiet fun c hc => by rw [List.mem_singleton.mp hc]; rfl).1
  | false =>
    cases status with
    | exited code => cases hends
    | signaled sig => cases hends
    | stopped stop =>
      by_cases hexec : stop = .exec
      · subst hexec
        obtain ⟨rec, hpid, hppid, hcalls⟩ := s.backend.handleReport_exec view (F.pid t)
        obtain ⟨hacc, hnote⟩ := hquiet fun c hc => (PtraceBackend.execAccess_accesses view (F.pid t) c hc).quiet
        rw [handle, hcalls]
        apply hacc.append (Finset.Subset.refl _)
        rw [hnote]
        exact h.booked_exec hactive (hf rfl) (ht rfl) hpid (hppid.trans (h.entry_ppid hactive (hf rfl)))
      · rw [handle]
        exact (hquiet fun c hc => ((s.backend.handleReport_calls view (F.pid t) hfork hexec).1 c hc).quiet).1

/-- One event that translates its parents keeps the invariant. -/
theorem step {e : TaskEvent} (hp : F.Possible s.world e) (hf : s.world.ForksFirst e) (ht : F.Translates s.world e) :
    F.Attributed (F.step s e) := by
  have hsane := h.sane.step hp
  cases e with
  | spawn c =>
    refine ⟨hsane, h.closed, h.ranks, h.parents, ?_, h.procs⟩
    rw [Family.step, handle, List.append_nil]
    exact h.booked
  | forkEvent t c cwd cmdline view =>
    obtain ⟨⟨rec, hpid, hppid, hcalls⟩, -⟩ := s.backend.handleReport_fork view (F.pid t) (F.pid_range c).1.ne'
      (h.sane.pid_ne hp) cwd cmdline
    refine ⟨hsane, fun u hu d hd hdu => ?_, fun u hu => ?_, fun u hu hpos => ?_, ?_, h.procs_fork hp⟩
    · rcases Finset.mem_insert.mp hu with rfl | hu
      · exact Finset.mem_insert_of_mem (ht.2.1 d hd hdu)
      · exact Finset.mem_insert_of_mem (h.closed u hu d hd hdu)
    · rcases Finset.mem_insert.mp hu with rfl | hu
      · exact ht.2.2
      · exact h.ranks u hu
    · rcases Finset.mem_insert.mp hu with rfl | hu
      · rw [hp.2.1]
        exact ht.1.1.imp_left Finset.mem_insert_of_mem
      · exact (h.parents u hu hpos).imp_left Finset.mem_insert_of_mem
    · apply h.booked.append (Finset.subset_insert c _)
      rw [handle, hcalls]
      exact h.booked_fork hp ht hpid hppid
  | report t status view =>
    have hreported : (s.world.step (.report t status view)).reported = s.world.reported := by
      simp only [TaskWorld.step]
      split <;> rfl
    have hbooked : F.Booked s.world.reported {} (s.calls ++ (F.handle s.backend (.report t status view)).2) :=
      h.booked.append (Finset.Subset.refl _) (h.booked_report hp hf ht)
    rw [← hreported] at hbooked
    refine ⟨hsane, ?_, ?_, ?_, hbooked, ?_⟩
    all_goals simp only [Family.step, hreported]
    · exact h.closed
    · exact h.ranks
    · exact h.parents
    · exact h.procs_report hp
  | vanish t =>
    refine ⟨hsane, h.closed, h.ranks, h.parents, ?_, fun u hu hlive => ?_⟩
    · rw [Family.step, handle, List.append_nil]
      exact h.booked
    · exact h.procs u hu fun hm => hlive (Finset.mem_insert_of_mem hm)

theorem separate : s.book.Separate [] := by
  refine Book.separate_of_bounded (n := 213) (fun p hpos => ?_) (by omega)
  have hcard : 0 < (s.world.reported.filter fun c => F.pid c = p).card := by
    rw [← h.booked.begun]
    exact hpos
  obtain ⟨c, hc, hmax⟩ := (s.world.reported.filter fun c => F.pid c = p).exists_max_image (fun c => c)
    (Finset.card_pos.mp hcard)
  obtain ⟨hrep, rfl⟩ := Finset.mem_filter.mp hc
  have hbegun := h.begun_current hrep fun d hd hdc => hmax d (Finset.mem_filter.mpr ⟨hd, hdc⟩)
  have hrank := h.ranks c hrep
  exact ⟨F.pid_range c, by omega⟩

theorem onAdmitted {sched : List PipelineAct} (hs : Pipeline.callsOf sched = s.calls) : Pipeline.OnProtocol {} sched :=
  Pipeline.onAdmitted (by decide) (by decide) (hs ▸ h.booked.admitted) (.inl rfl) (hs ▸ h.separate)

theorem id_injective {c d : Nat} (hc : c ∈ s.world.reported) (hd : d ∈ s.world.reported) (hid : F.id c = F.id d) :
    c = d := F.incarnation_injective (h.separate.1 _ _ (h.begun hc) (h.begun hd) hid)

end Attributed

theorem attributed_start (procsOnly seccompMode : Bool) (view : TraceeView) :
    F.Attributed (F.start procsOnly seccompMode view) := by
  have hzero : F.rank 0 = 0 := rfl
  refine ⟨sane_start, ?_, ?_, ?_, ⟨⟨.inl rfl, trivial⟩, rfl, fun p => ?_, ⟨⟨0, by simp [start], ?_, ?_⟩, trivial⟩⟩, ?_⟩
  · intro c hc d hd
    obtain rfl : c = 0 := by simpa [start] using hc
    omega
  · intro c hc
    obtain rfl : c = 0 := by simpa [start] using hc
    omega
  · intro c hc hpos
    obtain rfl : c = 0 := by simpa [start] using hc
    omega
  · by_cases hp : p = F.pid 0
    · subst hp
      simp [start, PtraceBackend.start, Book.note, Finset.filter_singleton]
    · simp [start, PtraceBackend.start, Book.note, Finset.filter_singleton, Ne.symm hp, Function.update_of_ne hp]
  · simp [Book.note, Book.current, Family.id, incarnation, hzero]
  · simp [Book.note, Book.current, ppidOf, Function.update_of_ne (F.pid_ne_tracer 0).symm]
    rfl
  · intro c hc _
    obtain rfl : c = 0 := by simpa [start] using hc
    exact ⟨_, PtraceBackend.track_self _ _ _, rfl⟩

/-- A possible run in which every fork event is reported before the child execs. -/
abbrev Traced (F : Family) (s : Tracing) (es : List TaskEvent) : Prop :=
  Runs.Along F.step (fun s e => F.Possible s.world e ∧ s.world.ForksFirst e) s es

theorem attributed_run {procsOnly seccompMode : Bool} {view : TraceeView} {es : List TaskEvent}
    (hp : F.Traced (F.start procsOnly seccompMode view) es)
    (ht : Runs.Along F.step (fun s e => F.Translates s.world e) (F.start procsOnly seccompMode view) es) :
    F.Attributed (F.run (F.start procsOnly seccompMode view) es) :=
  Runs.run_invariant (fun _ _ h hc => h.step hc.1.1 hc.1.2 hc.2)
    (attributed_start procsOnly seccompMode view) (hp.and ht)

/-- Every start that the session hands to the writer names the process that forked. -/
theorem Attributed.started {s : Tracing} (h : F.Attributed s) {proc : ProcessRecord}
    (hp : .procStart proc ∈ (({} : TraceSession).calls s.calls).2) : F.Parentage s.world.reported proc.pid proc.ppid :=
  Book.started TraceSession.tracks_fresh h.booked.admitted h.booked.starts proc hp

/-- The rows of the finished trace are those of the reported tasks. -/
theorem Attributed.finalized {s : Tracing} (h : F.Attributed s) {sched : List PipelineAct}
    (hs : Pipeline.callsOf sched = s.calls) :
    (∀ r ∈ ((Pipeline.opened {}).run sched).finalize.committed.processes, F.Parentage s.world.reported r.pid r.ppid) ∧
    (∀ c ∈ s.world.reported, ∃ r ∈ ((Pipeline.opened {}).run sched).finalize.committed.processes,
      r.pid = F.id c ∧ r.ppid = F.ppidOf c) := by
  have hon := h.onAdmitted hs
  have hrows := (hon.finalized (by decide)).1
  have hall : ∀ r ∈ ((Pipeline.opened {}).run sched).finalize.committed.processes,
      F.Parentage s.world.reported r.pid r.ppid := by
    intro r hr
    rw [hrows] at hr
    obtain ⟨r', hr', rfl⟩ := List.mem_map.mp hr
    refine Writer.rowsAfter_started (fun proc hproc => ?_) (fun r hr => by cases hr) r' hr'
    rw [hs] at hproc
    exact h.started hproc
  refine ⟨hall, fun c hc => ?_⟩
  have hkey : F.id c ∈ (Writer.rowsAfter [] (({} : TraceSession).calls (Pipeline.callsOf sched)).2).map (·.pid) := by
    refine (hon.keyed.keys _).mpr ⟨.inr ⟨F.incarnation c, ?_, rfl⟩, fun p hp => ?_⟩
    · rw [hs]
      exact h.begun hc
    · rw [hs] at hp
      exact absurd (hp.symm.trans h.pending) (by simp)
  obtain ⟨r, hr, hid⟩ := List.mem_map.mp hkey
  have hmem : ((Pipeline.opened {}).run sched).finalize.committed.counted r ∈
      ((Pipeline.opened {}).run sched).finalize.committed.processes := by
    rw [hrows]
    exact List.mem_map_of_mem hr
  obtain ⟨d, hd, hpid, hppid⟩ := hall _ hmem
  obtain rfl := h.id_injective hc hd (hid.symm.trans hpid)
  exact ⟨_, hmem, hid, hppid⟩

/-- P forks C and exits, its pid goes to D, which C forks, and C execs. -/
def reusedParent : Family where
  pid c := [10, 20, 10].getD c 30
  parent c := c - 1
  tracer := 7
  parent_lt c hc := by omega
  pid_range c := by
    match c with
    | 0 | 1 | 2 => decide
    | c + 3 => exact ⟨by simp, by simp⟩
  tracer_range := reusedChild.tracer_range
  pid_ne_tracer c := by
    match c with
    | 0 | 1 | 2 => decide
    | c + 3 => simp

def reusedParentRun : List TaskEvent :=
  [.spawn 1, .forkEvent 0 1 [] [] {}, .report 0 (.exited 0) {}, .spawn 2, .forkEvent 1 2 [] [] {},
    .report 1 (.stopped .exec) {}]

/-- The row of C names D as its parent. -/
theorem parent_pid_reused : reusedParent.Traced (reusedParent.start false false {}) reusedParentRun ∧
    ∃ sched, Pipeline.callsOf sched = (reusedParent.run (reusedParent.start false false {}) reusedParentRun).calls ∧
      ∃ r ∈ ((Pipeline.opened {}).run sched).finalize.committed.processes,
        r.pid = reusedParent.id 1 ∧ r.ppid ≠ reusedParent.ppidOf 1 ∧ r.ppid = reusedParent.id 2 := by
  refine ⟨by decide, (reusedParent.run (reusedParent.start false false {}) reusedParentRun).calls.map .call, ?_, ?_⟩
  · decide
  · decide

/-- Parent attribution. In every run whose steps translate a parent's pid only while it stands for the
parent, each row that was ever written names the process that forked it, and each reported task has
its row. -/
theorem ppid_is_forking_process (F : Family) (procsOnly seccompMode : Bool) (view : TraceeView) (es : List TaskEvent)
    (hp : F.Traced (F.start procsOnly seccompMode view) es)
    (ht : Runs.Along F.step (fun s e => F.Translates s.world e) (F.start procsOnly seccompMode view) es)
    (sched : List PipelineAct)
    (hs : Pipeline.callsOf sched = (F.run (F.start procsOnly seccompMode view) es).calls) :
    (∀ r ∈ ((Pipeline.opened {}).run sched).writer.db.tables.processes,
      F.Parentage (F.run (F.start procsOnly seccompMode view) es).world.reported r.pid r.ppid) ∧
    (∀ r ∈ ((Pipeline.opened {}).run sched).finalize.committed.processes,
      F.Parentage (F.run (F.start procsOnly seccompMode view) es).world.reported r.pid r.ppid) ∧
    ∀ c ∈ (F.run (F.start procsOnly seccompMode view) es).world.reported,
      ∃ r ∈ ((Pipeline.opened {}).run sched).finalize.committed.processes, r.pid = F.id c ∧ r.ppid = F.ppidOf c := by
  have h := attributed_run hp ht
  obtain ⟨es', hprefix, hwritten⟩ := (h.onAdmitted hs).written (by decide)
  refine ⟨fun r hr => ?_, h.finalized hs⟩
  rw [hwritten] at hr
  refine Writer.rowsAfter_started (fun proc hproc => ?_) (fun r hr => by cases hr) r hr
  have hmem := hprefix.subset hproc
  rw [hs] at hmem
  exact h.started hmem

/-- Without the reuse the row of C names P. -/
theorem ppid_of_child : ∃ r ∈ ((Pipeline.opened {}).run
      ((reusedParent.run (reusedParent.start false false {}) [.spawn 1, .forkEvent 0 1 [] [] {},
        .report 1 (.stopped .exec) {}]).calls.map .call)).finalize.committed.processes,
    r.pid = reusedParent.id 1 ∧ r.ppid = reusedParent.ppidOf 1 :=
  (ppid_is_forking_process reusedParent false false {}
    [.spawn 1, .forkEvent 0 1 [] [] {}, .report 1 (.stopped .exec) {}]
    (by decide) (by decide) _ (by decide)).2.2 1 (by decide)

end Family
end Bdtrace
