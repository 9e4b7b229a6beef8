import Bdtrace.View.RebuildClosure

/-! The source files of a graph, ranked by what a change of each would cost. -/
namespace Bdtrace
open Std (TreeMap TreeSet)

structure ImpactEntry where
  file : Str
  affectedCount : Int
  affectedDurationUs : Int
  deriving DecidableEq, Repr

structure RebuildEstimate where
  affectedCount : Int
  serialEstimateUs : Int := 0
  longestSingleUs : Int := 0
  deriving DecidableEq, Repr

/-- `cmp_impact_desc`: the first entry ranks strictly above the second. -/
def cmpImpactDesc (a b : ImpactEntry) : Bool :=
  if a.affectedDurationUs ≠ b.affectedDurationUs then decide (a.affectedDurationUs > b.affectedDurationUs)
  else decide (a.affectedCount > b.affectedCount)

/-- What `std::sort` with `cmp_impact_desc` promises. -/
structure SortsByImpact (sort : List ImpactEntry → List ImpactEntry) : Prop where
  perm : ∀ entries, (sort entries).Perm entries
  sorted : ∀ entries, (sort entries).Pairwise fun a b => cmpImpactDesc b a = false

namespace DependencyGraph
variable (g : DependencyGraph)

/-- One turn of the loop of `compute_rebuild_estimate`. -/
def addEstimate (est : RebuildEstimate) (pid : Int) : RebuildEstimate :=
  match g.procMap[pid]? with
  | none => est
  | some r =>
    let dur := r.endTimeUs - r.startTimeUs
    if dur > 0 then
      { est with
        serialEstimateUs := est.serialEstimateUs + dur
        longestSingleUs := if dur > est.longestSingleUs then dur else est.longestSingleUs }
    else est

def computeRebuildEstimate (affected : TreeSet Int) : RebuildEstimate :=
  affected.toList.foldl g.addEstimate { affectedCount := affected.size }

def allOutputs : TreeSet Str := g.pidToOutputs.values.foldl (fun s outputs => outputs.foldl (fun s f => s.insert f) s) ∅

/-- The files that were read and that nobody outputs. -/
def sourceFiles : TreeSet Str :=
  let allOutputs := g.allOutputs
  g.fileToReaders.keys.foldl (fun s f => if f ∈ allOutputs then s else s.insert f) ∅

/-- One turn of the loop over the affected processes. -/
def addDuration (total : Int) (pid : Int) : Int :=
  match g.procMap[pid]? with
  | none => total
  | some r =>
    let dur := r.endTimeUs - r.startTimeUs
    if dur > 0 then total + dur else total

def impactEntry (file : Str) (affected : TreeSet Int) : ImpactEntry where
  file := file
  affectedCount := affected.size
  affectedDurationUs := affected.toList.foldl g.addDuration 0

/-- The loop over the source files, where `clock` is what the calls of `now_us` return. -/
def impactLoop (fuel : Nat) (deadlineUs : Int) (clock : Nat → Int) : Nat → List Str → List ImpactEntry →
    Option (List ImpactEntry)
  | _, [], result => some result
  | turn, file :: files, result =>
    if 0 < deadlineUs ∧ deadlineUs < clock turn then some result
    else (g.rebuildBfs fuel {file}).bind fun affected =>
      impactLoop fuel deadlineUs clock (turn + 1) files (result ++ [g.impactEntry file affected])

def computeImpact (sort : List ImpactEntry → List ImpactEntry) (fuel : Nat) (clock : Nat → Int)
    (result : List ImpactEntry) (topN deadlineUs : Int) : Option (List ImpactEntry) :=
  (g.impactLoop fuel deadlineUs clock 0 g.sourceFiles.toList result).map fun result =>
    let result := sort result
    if 0 < topN ∧ topN < result.length then result.take topN.toNat else result

/-- A file that some process reads and none outputs. -/
def Source (file : Str) : Prop := (∃ p, p ∈ g.readersOf file) ∧ ∀ p, file ∉ g.outputsOf p

/-- No file is a key without a reader. -/
def ReadersTight : Prop := ∀ f ∈ g.fileToReaders, ∃ p, p ∈ g.readersOf f

section
variable {g}

private theorem addEstimate_foldl (pids : List Int) (est : RebuildEstimate) :
    (pids.foldl g.addEstimate est).affectedCount = est.affectedCount ∧
      (pids.foldl g.addEstimate est).serialEstimateUs = pids.foldl g.addDuration est.serialEstimateUs := by
  induction pids generalizing est with
  | nil => exact ⟨rfl, rfl⟩
  | cons pid pids ih =>
    have hturn : (g.addEstimate est pid).affectedCount = est.affectedCount ∧
        (g.addEstimate est pid).serialEstimateUs = g.addDuration est.serialEstimateUs pid := by
      simp only [addEstimate, addDuration]
      split
      · exact ⟨rfl, rfl⟩
      · split <;> exact ⟨rfl, rfl⟩
    obtain ⟨hcount, hserial⟩ := ih (g.addEstimate est pid)
    rw [List.foldl_cons, List.foldl_cons, hcount, hserial, hturn.2]
    exact ⟨hturn.1, rfl⟩

/-- An entry has the estimate of the same processes. -/
private theorem impactEntry_estimate (file : Str) (affected : TreeSet Int) :
    (g.impactEntry file affected).affectedCount = (g.computeRebuildEstimate affected).affectedCount ∧
      (g.impactEntry file affected).affectedDurationUs = (g.computeRebuildEstimate affected).serialEstimateUs := by
  obtain ⟨hcount, hserial⟩ := g.addEstimate_foldl affected.toList { affectedCount := affected.size }
  exact ⟨hcount.symm, hserial.symm⟩

private theorem mem_allOutputs (f : Str) : f ∈ g.allOutputs ↔ ∃ p, f ∈ g.outputsOf p :=
  mem_foldl_values g.pidToOutputs f

private theorem mem_fileToReaders {f : Str} {p : Int} (h : p ∈ g.readersOf f) : f ∈ g.fileToReaders := by
  by_contra hf
  rw [readersOf, Std.TreeMap.getD_eq_fallback hf] at h
  exact Std.TreeSet.not_mem_emptyc h

private theorem mem_sourceFiles (h : g.ReadersTight) (f : Str) : f ∈ g.sourceFiles ↔ g.Source f := by
  have hfold : ∀ (files : List Str) (s : TreeSet Str),
      f ∈ files.foldl (fun s f => if f ∈ g.allOutputs then s else s.insert f) s ↔
        f ∈ s ∨ (f ∈ files ∧ f ∉ g.allOutputs) := by
    intro files
    induction files with
    | nil => simp
    | cons file files ih =>
      intro s
      rw [List.foldl_cons, ih, List.mem_cons]
      by_cases hout : file ∈ g.allOutputs
      · rw [if_pos hout]
        refine or_congr_right (and_congr_left fun hf => (or_iff_right ?_).symm)
        rintro rfl
        exact hf hout
      · rw [if_neg hout, Std.TreeSet.mem_insert, Std.compare_eq_iff_eq]
        by_cases heq : f = file
        · subst heq
          simp [hout]
        · simp [heq, Ne.symm heq]
  rw [sourceFiles, hfold, or_iff_right Std.TreeSet.not_mem_emptyc, Std.TreeMap.mem_keys, mem_allOutputs,
    not_exists, Source]
  refine and_congr_left fun _ => ⟨h f, ?_⟩
  rintro ⟨p, hp⟩
  exact mem_fileToReaders hp

theorem ReadersTight.addAccess (h : g.ReadersTight) (p : Int) (file : Str) (mode : Int) :
    (g.addAccess p file mode).ReadersTight := by
  intro f hf
  have hold : f ∈ g.fileToReaders ∨ (f = file ∧ isInputMode mode = true) := by
    rw [DependencyGraph.addAccess] at hf
    cases hmode : isInputMode mode with
    | false =>
      refine .inl ?_
      rw [hmode] at hf
      split at hf <;> exact hf
    | true =>
      rw [hmode] at hf
      refine (or_comm.trans (or_congr_right (and_iff_left rfl).symm)).mp
        ((mem_insertInto g.fileToReaders file f p).mp ?_)
      split at hf <;> exact hf
  rcases hold with hold | ⟨rfl, hmode⟩
  · obtain ⟨q, hq⟩ := h f hold
    exact ⟨q, (addAccess_readers g p file mode f q).mpr (.inl hq)⟩
  · exact ⟨p, (addAccess_readers g p f mode f p).mpr (.inr ⟨rfl, rfl, hmode⟩)⟩

private theorem readersTight_built (t : Tables) : (buildDependencyGraph t).ReadersTight := by
  have hstored : ∀ (accs : List Tables.StoredAccess) (g : DependencyGraph), g.ReadersTight →
      (accs.foldl addStored g).ReadersTight := by
    intro accs
    induction accs with
    | nil => exact fun g h => h
    | cons a accs ih =>
      intro g h
      apply ih
      rw [addStored]
      split
      · exact h
      · exact h.addAccess _ _ _
  intro f hf
  have htight := hstored t.accesses {} fun f hf => absurd hf Std.TreeMap.not_mem_emptyc
  rw [readersOf, fileToReaders_built]
  rw [fileToReaders_built] at hf
  exact htight f hf

/-! ### The ranking -/

private theorem cmpImpactDesc_false {a b : ImpactEntry} (h : cmpImpactDesc b a = false) :
    b.affectedDurationUs ≤ a.affectedDurationUs ∧
      (b.affectedDurationUs = a.affectedDurationUs → b.affectedCount ≤ a.affectedCount) := by
  rw [cmpImpactDesc] at h
  split at h
  · rename_i hne
    have hle := of_decide_eq_false h
    exact ⟨by omega, fun heq => absurd heq hne⟩
  · rename_i heq
    have hle := of_decide_eq_false h
    exact ⟨(not_not.mp heq).le, fun _ => by omega⟩

/-- Without a deadline every file gets its entry. -/
private theorem impactLoop_eq {fuel : Nat} {deadlineUs : Int} (hd : deadlineUs ≤ 0) (clock : Nat → Int)
    {affected : Str → TreeSet Int} (hbfs : ∀ f, g.rebuildBfs fuel {f} = some (affected f)) (turn : Nat)
    (files : List Str)
    (result : List ImpactEntry) : g.impactLoop fuel deadlineUs clock turn files result =
      some (result ++ files.map fun f => g.impactEntry f (affected f)) := by
  induction files generalizing turn result with
  | nil => rw [impactLoop, List.map_nil, List.append_nil]
  | cons f files ih =>
    rw [impactLoop, if_neg (by omega), hbfs, Option.bind_some, ih, List.append_assoc]
    rfl

variable (g) in
/-- Each source file once, with the estimate of what is rebuilt when it alone changes, by falling duration and, for
equal durations, by falling count. -/
structure RanksSources (fuel : Nat) (ranking : List ImpactEntry) : Prop where
  once : (ranking.map (·.file)).Nodup
  sources : ∀ f, f ∈ ranking.map (·.file) ↔ g.Source f
  estimate : ∀ e ∈ ranking, ∃ affected, g.rebuildBfs fuel {e.file} = some affected ∧
    e.affectedCount = (g.computeRebuildEstimate affected).affectedCount ∧
    e.affectedDurationUs = (g.computeRebuildEstimate affected).serialEstimateUs
  order : ranking.Pairwise fun a b => b.affectedDurationUs ≤ a.affectedDurationUs ∧
    (b.affectedDurationUs = a.affectedDurationUs → b.affectedCount ≤ a.affectedCount)

private theorem ranksSources_sort {sort : List ImpactEntry → List ImpactEntry} (hsort : SortsByImpact sort)
    (hg : g.ReadersTight)
    {fuel : Nat} {affected : Str → TreeSet Int} (hbfs : ∀ f, g.rebuildBfs fuel {f} = some (affected f)) :
    g.RanksSources fuel (sort (g.sourceFiles.toList.map fun f => g.impactEntry f (affected f))) := by
  have hperm := hsort.perm (g.sourceFiles.toList.map fun f => g.impactEntry f (affected f))
  have hfiles : (sort (g.sourceFiles.toList.map fun f => g.impactEntry f (affected f))).map (·.file) |>.Perm
      g.sourceFiles.toList := by
    refine (hperm.map _).trans (.of_eq ?_)
    rw [List.map_map]
    exact List.map_id _
  refine ⟨hfiles.nodup_iff.mpr (nodup_toList _), fun f => ?_, fun e he => ?_, ?_⟩
  · rw [hfiles.mem_iff, Std.TreeSet.mem_toList, mem_sourceFiles hg]
  · obtain ⟨f, -, rfl⟩ := List.mem_map.mp (hperm.mem_iff.mp he)
    exact ⟨affected f, hbfs f, impactEntry_estimate f (affected f)⟩
  · exact (hsort.sorted _).imp cmpImpactDesc_false

end

/-- The impact ranking agrees with the rebuild of each source file, and its first entries are the highest ones. -/
theorem computeImpact_ranks {sort : List ImpactEntry → List ImpactEntry} (hsort : SortsByImpact sort)
    {g : DependencyGraph}
    (hg : g.ReadersTight) (clock : Nat → Int) {deadlineUs : Int} (hd : deadlineUs ≤ 0) :
    ∃ n, ∀ fuel, n ≤ fuel → ∃ ranking, g.RanksSources fuel ranking ∧
      (∀ topN ≤ 0, g.computeImpact sort fuel clock [] topN deadlineUs = some ranking) ∧
      ∀ topN > 0, ∃ listed omitted, g.computeImpact sort fuel clock [] topN deadlineUs = some listed ∧
        listed ++ omitted = ranking ∧ (listed.length : Int) = min topN ranking.length ∧
        ∀ e ∈ listed, ∀ o ∈ omitted, cmpImpactDesc o e = false := by
  refine ⟨(allReaders g).card, fun fuel hfuel => ?_⟩
  have hbfs : ∀ f, ∃ affected, g.rebuildBfs fuel {f} = some affected := fun f => by
    obtain ⟨popped, seen, hexplore, -⟩ := explore_changed g {f} hfuel
    exact ⟨seen, rebuildBfs_eq hexplore⟩
  choose affected haffected using hbfs
  obtain ⟨ranking, hranking⟩ : ∃ ranking, ranking =
    sort (g.sourceFiles.toList.map fun f => g.impactEntry f (affected f)) :=
    ⟨_, rfl⟩
  have hrun : ∀ topN, g.computeImpact sort fuel clock [] topN deadlineUs =
      some (if 0 < topN ∧ topN < ranking.length then ranking.take topN.toNat else ranking) := fun topN => by
    rw [computeImpact, impactLoop_eq hd clock haffected, List.nil_append, Option.map_some, hranking]
  refine ⟨ranking, hranking ▸ ranksSources_sort hsort hg haffected, fun topN htop => ?_, fun topN htop => ?_⟩
  · rw [hrun, if_neg (by omega)]
  · by_cases hcut : topN < ranking.length
    · refine ⟨_, ranking.drop topN.toNat, hrun topN, ?_⟩
      rw [if_pos ⟨htop, hcut⟩]
      have hsorted : (ranking.take topN.toNat ++ ranking.drop topN.toNat).Pairwise fun a b =>
          cmpImpactDesc b a = false := by
        rw [List.take_append_drop, hranking]
        exact hsort.sorted _
      refine ⟨List.take_append_drop _ _, ?_, (List.pairwise_append.mp hsorted).2.2⟩
      rw [List.length_take]
      omega
    · refine ⟨_, [], hrun topN, ?_⟩
      rw [if_neg (fun h => hcut h.2)]
      exact ⟨List.append_nil _, by omega, fun e _ o ho => by cases ho⟩

/-- A sort that keeps the entries that rank equal in their order. -/
def stableSortByImpact (entries : List ImpactEntry) : List ImpactEntry :=
  entries.insertionSort fun a b => cmpImpactDesc b a = false

private theorem stableSortByImpact_sorts : SortsByImpact stableSortByImpact := by
  have hfalse : ∀ a b : ImpactEntry, cmpImpactDesc b a = false ↔ b.affectedDurationUs < a.affectedDurationUs ∨
      (b.affectedDurationUs = a.affectedDurationUs ∧ b.affectedCount ≤ a.affectedCount) := fun a b => by
    rw [cmpImpactDesc]
    split <;> simp <;> omega
  refine ⟨fun entries => List.perm_insertionSort _ _, fun entries => ?_⟩
  have : Std.Total fun a b : ImpactEntry => cmpImpactDesc b a = false := ⟨fun a b => by simp only [hfalse]; omega⟩
  have : IsTrans ImpactEntry fun a b => cmpImpactDesc b a = false := ⟨fun a b c => by simp only [hfalse]; omega⟩
  exact List.pairwise_insertionSort _ _

/-- The second process reads a header and what the first one makes of its source. -/
def headerGraph : DependencyGraph := buildDependencyGraph
  { processes := [{ pid := 1, ppid := 0, startTimeUs := 0, endTimeUs := 5 },
      { pid := 2, ppid := 0, startTimeUs := 5, endTimeUs := 7 }]
    files := [⟨1, "a.c".toList⟩, ⟨2, "a.h".toList⟩, ⟨3, "a.o".toList⟩]
    fileAccesses := [⟨1, 1, 1, 0, 3, 0⟩, ⟨2, 1, 3, 1, 3, 0⟩, ⟨3, 2, 2, 0, 3, 0⟩, ⟨4, 2, 3, 0, 3, 0⟩] }

theorem computeImpact_ranks_header : ∃ n, ∀ fuel, n ≤ fuel → ∃ ranking, headerGraph.RanksSources fuel ranking ∧
    (∀ topN ≤ 0, headerGraph.computeImpact stableSortByImpact fuel (fun _ => 0) [] topN 0 = some ranking) ∧
    ∀ topN > 0, ∃ listed omitted,
      headerGraph.computeImpact stableSortByImpact fuel (fun _ => 0) [] topN 0 = some listed ∧
      listed ++ omitted = ranking ∧ (listed.length : Int) = min topN ranking.length ∧
      ∀ e ∈ listed, ∀ o ∈ omitted, cmpImpactDesc o e = false :=
  computeImpact_ranks stableSortByImpact_sorts (readersTight_built _) (fun _ => 0) le_rfl

end DependencyGraph
end Bdtrace
