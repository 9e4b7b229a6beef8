import Bdtrace.Session.AppendedRuns
import Bdtrace.Tracer.ParentLinks
import Bdtrace.View.TreeWalks

/-! The process trees that a trace stores, as the viewers walk them. -/
namespace Bdtrace
namespace Family
variable {F : Family}

/-- Where the parent of a task has a row, it is of an earlier task. -/
private theorem Attributed.older {s : Tracing} (h : F.Attributed s) {c d : Nat} (hc : c ∈ s.world.reported)
    (hd : d ∈ s.world.reported) (hid : F.id d = F.ppidOf c) : d < c := by
  have hdpid := F.pid_range d
  have hdrank := h.ranks d hd
  have hdfits : (F.rank d : Int) * 10000000 + F.pid d < 2147483648 := by omega
  have hdid : F.id d = F.rank d * 10000000 + F.pid d := Incarnation.id_eq hdpid.1 hdfits
  rcases Nat.eq_zero_or_pos c with rfl | hpos
  · have htracer := F.tracer_range
    have hne := F.pid_ne_tracer d
    simp only [ppidOf, if_true] at hid
    omega
  · have hrank : F.rank (F.parent c) ≤ 213 := by
      rcases h.parents c hc hpos with hrep | hzero
      · exact h.ranks _ hrep
      · omega
    simp only [ppidOf, Nat.ne_of_gt hpos, if_false] at hid
    have heq := Incarnation.id_injective (F.pid_range d) (h.ranks d hd) (F.pid_range (F.parent c)) hrank hid
    rw [F.incarnation_injective heq]
    exact F.parent_lt c hpos

/-- Rows of reported tasks form a forest: a task is younger than the task that forked it. -/
private theorem Attributed.walksEnd {s : Tracing} (h : F.Attributed s) {t : Tables} (hk : t.pids.Nodup)
    (ht : ∀ r ∈ t.processes, F.Parentage s.world.reported r.pid r.ppid) : WalksEnd t := by
  apply walksEnd_of_rank hk fun x => (s.world.reported.filter fun c => F.id c = x).sup fun c => c + 1
  intro r hr
  obtain ⟨c, hc, hpid, hppid⟩ := ht r hr
  have hchild : c + 1 ≤ (s.world.reported.filter fun c => F.id c = r.pid).sup fun c => c + 1 :=
    Finset.le_sup (f := fun c => c + 1) (Finset.mem_filter.mpr ⟨hc, hpid.symm⟩)
  refine lt_of_lt_of_le ?_ hchild
  apply (Finset.sup_lt_iff (Nat.succ_pos c)).mpr
  intro d hd
  obtain ⟨hdrep, hdid⟩ := Finset.mem_filter.mp hd
  exact Nat.succ_lt_succ (h.older hc hdrep (hdid.trans hppid))

/-- The rows of C and D name each other, so the recursion and the query never end on them. -/
theorem reused_parent_cycle : reusedParent.Traced (reusedParent.start false false {}) reusedParentRun ∧
    ∃ sched, Pipeline.callsOf sched = (reusedParent.run (reusedParent.start false false {}) reusedParentRun).calls ∧
      ¬ WalksEnd ((Pipeline.opened {}).run sched).finalize.committed ∧
      ∀ fuel, ((Pipeline.opened {}).run sched).finalize.committed.getDescendantPids fuel 20 = none ∧
        computeDescOne (buildDependencyGraph ((Pipeline.opened {}).run sched).finalize.committed) fuel 20 ∅ = none := by
  refine ⟨by decide, (reusedParent.run (reusedParent.start false false {})
    reusedParentRun).calls.map .call, by decide, ?_⟩
  generalize hfinal : ((Pipeline.opened {}).run _).finalize.committed = final
  have hcycle : ∀ a, a = 20 ∨ a = 10000010 → ∃ b ∈ final.childPids a, b = 20 ∨ b = 10000010 := by
    rw [← hfinal]
    rintro a (rfl | rfl) <;> decide
  have hend : ∀ fuel, final.getDescendantPids fuel 20 = none ∧
      computeDescOne (buildDependencyGraph final) fuel 20 ∅ = none := walks_endless hcycle (.inl rfl)
  refine ⟨fun h => ?_, hend⟩
  obtain ⟨n, hn⟩ := h.descendants 20
  have hsome := hn n le_rfl
  rw [(hend n).1] at hsome
  cases hsome

/-- Viewers terminate. In every run whose steps translate a parent's pid only while it stands for the
parent, the walks over the rows that were written so far and over those of the finished trace end. -/
theorem stored_walks_end (F : Family) (procsOnly seccompMode : Bool) (view : TraceeView) (es : List TaskEvent)
    (hp : F.Traced (F.start procsOnly seccompMode view) es)
    (ht : Runs.Along F.step (fun s e => F.Translates s.world e) (F.start procsOnly seccompMode view) es)
    (sched : List PipelineAct)
    (hs : Pipeline.callsOf sched = (F.run (F.start procsOnly seccompMode view) es).calls) :
    WalksEnd ((Pipeline.opened {}).run sched).writer.db.tables ∧
      WalksEnd ((Pipeline.opened {}).run sched).finalize.committed := by
  have h := attributed_run hp ht
  obtain ⟨es', hprefix, hwritten⟩ := (h.onAdmitted hs).written (by decide)
  refine ⟨h.walksEnd ?_ fun r hr => ?_, h.walksEnd ?_ (h.finalized hs).1⟩
  · rw [Tables.pids, hwritten]
    exact @Writer.rowsAfter_nodup [] List.nodup_nil es'
  · rw [hwritten] at hr
    refine Writer.rowsAfter_started (fun proc hproc => ?_) (fun r hr => by cases hr) r hr
    have hmem := hprefix.subset hproc
    rw [hs] at hmem
    exact h.started hmem
  · exact Pipeline.finalize_pids_nodup (by decide) (by decide) sched

/-- The tree of the root, a child and its exec. -/
theorem child_walks_end : WalksEnd ((Pipeline.opened {}).run
    ((reusedParent.run (reusedParent.start false false {}) [.spawn 1, .forkEvent 0 1 [] [] {},
      .report 1 (.stopped .exec) {}]).calls.map .call)).finalize.committed :=
  (stored_walks_end reusedParent false false {} [.spawn 1, .forkEvent 0 1 [] [] {}, .report 1 (.stopped .exec) {}]
    (by decide) (by decide) _ (by decide)).2

end Family
end Bdtrace
