import Bdtrace.General.Exploration
import Bdtrace.View.RedirectFixup

/-! Both rebuild searches compute the same least set, and the reasons of the second one explain it. -/
namespace Bdtrace
open Std (TreeMap TreeSet)
open Exploration (State explore Explored)

/-- The local variables of `rebuild_bfs`. -/
structure RebuildMarks where
  affected : TreeSet Int := ∅
  worklist : List Int := []

/-- `if (affected.insert(*ri).second) worklist.push(*ri)`. -/
def RebuildMarks.mark (s : RebuildMarks) (reader : Int) : RebuildMarks where
  affected := s.affected.insert reader
  worklist := if reader ∈ s.affected then s.worklist else s.worklist ++ [reader]

namespace DependencyGraph
variable (g : DependencyGraph)

/-- The loop over the readers of one file. -/
def markReaders (s : RebuildMarks) (file : Str) : RebuildMarks := (g.readersOf file).toList.foldl RebuildMarks.mark s

def markLoop : Nat → RebuildMarks → Option RebuildMarks
  | fuel, s =>
    match s.worklist, fuel with
    | [], _ => some s
    | _ :: _, 0 => none
    | pid :: worklist, fuel + 1 =>
      markLoop fuel ((g.outputsOf pid).toList.foldl g.markReaders { s with worklist := worklist })

def rebuildBfs (fuel : Nat) (changed : TreeSet Str) : Option (TreeSet Int) :=
  (g.markLoop fuel (changed.toList.foldl g.markReaders {})).map (·.affected)

/-! ### The least set -/

/-- A set with the readers of the changed files and the readers of what its members output. -/
structure Closed (changed : TreeSet Str) (pids : Set Int) : Prop where
  changed : ∀ f ∈ changed, ∀ p ∈ g.readersOf f, p ∈ pids
  outputs : ∀ p ∈ pids, ∀ f ∈ g.outputsOf p, ∀ q ∈ g.readersOf f, q ∈ pids

/-- The readers of what a process outputs. -/
def feeds (pid : Int) : List Int := (g.outputsOf pid).toList.flatMap fun f => (g.readersOf f).toList

def readersOfAny (files : TreeSet Str) : List Int := files.toList.flatMap fun f => (g.readersOf f).toList

section
variable {g}

theorem mem_readersOfAny (files : TreeSet Str) (p : Int) :
    p ∈ g.readersOfAny files ↔ ∃ f ∈ files, p ∈ g.readersOf f := by
  simp only [readersOfAny, List.mem_flatMap, Std.TreeSet.mem_toList]

theorem mem_feeds (q p : Int) : p ∈ g.feeds q ↔ ∃ f ∈ g.outputsOf q, p ∈ g.readersOf f := mem_readersOfAny _ p

/-! ### Both searches as explorations -/

def toMarks (s : RebuildSearch) : RebuildMarks := ⟨s.affected, s.worklist⟩

def toState (s : RebuildMarks) : State Int := ⟨s.affected, s.worklist⟩

private theorem markReaders_toState (files : List Str) (s : RebuildMarks) :
    toState (files.foldl g.markReaders s) = (toState s).pushAll (files.flatMap fun f => (g.readersOf f).toList) := by
  rw [State.pushAll, List.foldl_flatMap]
  symm
  apply List.foldl_hom
  intro s f
  apply List.foldl_hom
  intro s p
  rfl

private theorem noteReaders_toMarks (source : Int) (files : List Str) (s : RebuildSearch) :
    toMarks (files.foldl (g.noteReaders source) s) = files.foldl g.markReaders (toMarks s) := by
  symm
  apply List.foldl_hom
  intro s f
  apply List.foldl_hom
  intro s p
  rfl

private theorem markLoop_eq (fuel : Nat) (s : RebuildMarks) :
    (g.markLoop fuel s).map toState = (explore g.feeds fuel (toState s)).map fun found => ⟨found.2, []⟩ := by
  induction fuel generalizing s with
  | zero => rcases s with ⟨affected, _ | ⟨p, worklist⟩⟩ <;> rfl
  | succ fuel ih =>
    rcases s with ⟨affected, _ | ⟨p, worklist⟩⟩
    · rfl
    · have hturn := ih ((g.outputsOf p).toList.foldl g.markReaders ⟨affected, worklist⟩)
      rw [markReaders_toState] at hturn
      have hpop : explore g.feeds (fuel + 1) (toState ⟨affected, p :: worklist⟩) =
          (explore g.feeds fuel (State.pushAll ⟨affected, worklist⟩ (g.feeds p))).map fun found =>
            (p :: found.1, found.2) := rfl
      rw [hpop, Option.map_map]
      exact hturn

/-- The processes that the graph's readers are. -/
def allReaders (g : DependencyGraph) : Finset Int := (g.fileToReaders.toList.flatMap fun e => e.2.toList).toFinset

private theorem mem_allReaders {f : Str} {p : Int} (h : p ∈ g.readersOf f) : p ∈ allReaders g := by
  rw [readersOf, Std.TreeMap.getD_eq_getD_getElem?] at h
  cases hf : g.fileToReaders[f]? with
  | none =>
    rw [hf] at h
    exact absurd h Std.TreeSet.not_mem_emptyc
  | some readers =>
    rw [hf] at h
    rw [allReaders, List.mem_toFinset, List.mem_flatMap]
    exact ⟨(f, readers), Std.TreeMap.mem_toList_iff_getElem?_eq_some.mpr hf, Std.TreeSet.mem_toList.mpr h⟩

/-- A pop for each reader is enough. -/
theorem explore_changed (g : DependencyGraph) (changed : TreeSet Str) {fuel : Nat} (h : (allReaders g).card ≤ fuel) :
    ∃ popped seen, explore g.feeds fuel (State.pushAll {} (g.readersOfAny changed)) = some (popped, seen) ∧
      Explored g.feeds (g.readersOfAny changed) popped seen := by
  have hseeds : ∀ p ∈ g.readersOfAny changed, p ∈ allReaders g := fun p hp => by
    obtain ⟨f, -, hread⟩ := (mem_readersOfAny changed p).mp hp
    exact mem_allReaders hread
  have hnext : ∀ q ∈ allReaders g, ∀ p ∈ g.feeds q, p ∈ allReaders g := fun q _ p hp => by
    obtain ⟨f, -, hread⟩ := (mem_feeds q p).mp hp
    exact mem_allReaders hread
  exact Exploration.explore_total hseeds hnext h

theorem rebuildBfs_eq {fuel : Nat} {changed : TreeSet Str} {popped : List Int} {seen : TreeSet Int}
    (h : explore g.feeds fuel (State.pushAll {} (g.readersOfAny changed)) = some (popped, seen)) :
    g.rebuildBfs fuel changed = some seen := by
  have hloop := @markLoop_eq g fuel (changed.toList.foldl g.markReaders {})
  rw [markReaders_toState] at hloop
  obtain ⟨s, hs, hstate⟩ := Option.map_eq_some_iff.mp (hloop.trans (congrArg _ h))
  rw [rebuildBfs, hs, Option.map_some]
  exact congrArg some (congrArg State.seen hstate)

private theorem Closed.of_reaches {changed : TreeSet Str} {pids : Set Int} (h : g.Closed changed pids) {p : Int}
    (hp : ∃ q ∈ g.readersOfAny changed, Worklist.Reaches g.feeds q p) : p ∈ pids := by
  obtain ⟨q, hq, hreach⟩ := hp
  induction hreach with
  | refl =>
    obtain ⟨f, hf, hread⟩ := (mem_readersOfAny changed q).mp hq
    exact h.changed f hf q hread
  | tail _ hstep ih =>
    obtain ⟨f, hf, hread⟩ := (mem_feeds _ _).mp hstep
    exact h.outputs _ ih f hf _ hread

private theorem closed_explored {changed : TreeSet Str} {popped : List Int} {seen : TreeSet Int}
    (h : Explored g.feeds (g.readersOfAny changed) popped seen) : g.Closed changed {p | p ∈ seen} := by
  refine ⟨fun f hf p hp => ?_, fun p hp f hf q hq => ?_⟩
  · exact (h.seen p).mpr ((h.reached p).mpr ⟨p, (mem_readersOfAny changed p).mpr ⟨f, hf, hp⟩, .refl⟩)
  · obtain ⟨a, ha, hreach⟩ := (h.reached p).mp ((h.seen p).mp hp)
    exact (h.seen q).mpr ((h.reached q).mpr ⟨a, ha, hreach.tail ((mem_feeds p q).mpr ⟨f, hf, hq⟩)⟩)

end

/-! ### Reasons -/

/-- The reasons for which one source makes a process run again. -/
def reasonsFrom (g : DependencyGraph) (p source : Int) (files : TreeSet Str) : List RebuildReason :=
  (files.toList.filter fun f => p ∈ g.readersOf f).map fun f => ⟨f, source⟩

/-- A chain of reasons that leads back to a changed file. -/
inductive Explained (changed : TreeSet Str) (reasons : TreeMap Int (List RebuildReason)) : Int → Prop
  | changed {p : Int} {f : Str} (hf : f ∈ changed) (hp : ⟨f, 0⟩ ∈ reasons.getD p []) : Explained changed reasons p
  | output {p q : Int} {f : Str} (hq : Explained changed reasons q) (hp : ⟨f, q⟩ ∈ reasons.getD p []) :
    Explained changed reasons p

section
variable {g : DependencyGraph}

private theorem mem_reasonsFrom (p source : Int) (files : TreeSet Str) (r : RebuildReason) :
    r ∈ g.reasonsFrom p source files ↔ r.file ∈ files ∧ p ∈ g.readersOf r.file ∧ r.sourcePid = source := by
  simp only [reasonsFrom, List.mem_map, List.mem_filter, Std.TreeSet.mem_toList, decide_eq_true_eq]
  constructor
  · rintro ⟨f, ⟨hf, hp⟩, rfl⟩
    exact ⟨hf, hp, rfl⟩
  · rintro ⟨hf, hp, rfl⟩
    exact ⟨r.file, ⟨hf, hp⟩, rfl⟩

private theorem nodup_reasonsFrom (p source : Int) (files : TreeSet Str) : (g.reasonsFrom p source files).Nodup := by
  apply List.Nodup.map
  · intro f f' heq
    exact congrArg RebuildReason.file heq
  · exact (nodup_toList files).filter _

private theorem note_reasons (s : RebuildSearch) (r : RebuildReason) (reader p : Int) :
    (s.note r reader).reasonMap.getD p [] = s.reasonMap.getD p [] ++ if reader = p then [r] else [] := by
  by_cases h : reader = p
  · subst h
    rw [RebuildSearch.note, Std.TreeMap.getD_alter_self, Option.getD_some, if_pos rfl,
      ← Std.TreeMap.getD_eq_getD_getElem?]
  · have hne : compare reader p ≠ .eq := by simpa using h
    rw [RebuildSearch.note, Std.TreeMap.getD_alter, if_neg hne, if_neg h, List.append_nil]

/-- The readers of one file get one reason each. -/
private theorem foldl_note_reasons (r : RebuildReason) {readers : List Int} (hnd : readers.Nodup)
    (s : RebuildSearch) (p : Int) :
    (readers.foldl (fun s reader => s.note r reader) s).reasonMap.getD p [] =
      s.reasonMap.getD p [] ++ if p ∈ readers then [r] else [] := by
  induction readers generalizing s with
  | nil => simp
  | cons reader readers ih =>
    obtain ⟨hnot, hnd⟩ := List.nodup_cons.mp hnd
    rw [List.foldl_cons, ih hnd, note_reasons, List.append_assoc]
    by_cases h : reader = p
    · subst h
      simp [hnot]
    · simp [h, Ne.symm h]

private theorem noteReaders_reasons (source : Int) (files : TreeSet Str) (s : RebuildSearch) (p : Int) :
    (files.toList.foldl (g.noteReaders source) s).reasonMap.getD p [] =
      s.reasonMap.getD p [] ++ g.reasonsFrom p source files := by
  rw [reasonsFrom]
  induction files.toList generalizing s with
  | nil => simp
  | cons f files ih =>
    rw [List.foldl_cons, ih, noteReaders, foldl_note_reasons _ (nodup_toList _), List.append_assoc]
    by_cases h : p ∈ g.readersOf f <;> simp [h]

/-- The keys of the reasons are the affected processes. -/
def Keyed (s : RebuildSearch) : Prop := ∀ p, p ∈ s.reasonMap ↔ p ∈ s.affected

theorem Keyed.note {s : RebuildSearch} (h : Keyed s) (r : RebuildReason) (reader : Int) : Keyed (s.note r reader) := by
  intro p
  rw [RebuildSearch.note, Std.TreeSet.mem_insert, Std.compare_eq_iff_eq, Std.TreeMap.mem_alter]
  by_cases heq : reader = p
  · simp [heq]
  · simp [heq, h p]

theorem Keyed.noteReaders (source : Int) (files : List Str) {s : RebuildSearch} (h : Keyed s) :
    Keyed (files.foldl (g.noteReaders source) s) := by
  induction files generalizing s with
  | nil => exact h
  | cons f files ih =>
    apply ih
    rw [DependencyGraph.noteReaders]
    induction (g.readersOf f).toList generalizing s with
    | nil => exact h
    | cons reader readers ih' => exact ih' (h.note _ reader)

private theorem rebuildLoop_done (fuel : Nat) {s : RebuildSearch} (h : s.worklist = []) :
    g.rebuildLoop fuel s = some s := by
  rcases s with ⟨affected, worklist, reasons⟩
  subst h
  cases fuel <;> rfl

/-- More fuel changes nothing. -/
private theorem rebuildLoop_mono {fuel fuel' : Nat} (hle : fuel ≤ fuel') {s s' : RebuildSearch}
    (h : g.rebuildLoop fuel s = some s') :
    g.rebuildLoop fuel' s = some s' := by
  induction fuel generalizing fuel' s with
  | zero =>
    rcases s with ⟨affected, _ | ⟨q, worklist⟩, reasons⟩
    · exact (rebuildLoop_done fuel' rfl).trans h
    · cases h
  | succ fuel ih =>
    rcases s with ⟨affected, _ | ⟨q, worklist⟩, reasons⟩
    · exact (rebuildLoop_done fuel' rfl).trans h
    · obtain ⟨fuel', rfl⟩ := Nat.exists_eq_add_of_lt hle
      exact ih (Nat.le_add_right fuel fuel') h

/-- Every popped process adds the reasons that its outputs are. -/
private theorem rebuildLoop_reasons {fuel : Nat} {s : RebuildSearch} {popped : List Int} {seen : TreeSet Int}
    (h : explore g.feeds fuel (toState (toMarks s)) = some (popped, seen)) (hkeys : Keyed s) :
    ∃ s', g.rebuildLoop fuel s = some s' ∧ Keyed s' ∧ s'.affected = seen ∧
      ∀ p, s'.reasonMap.getD p [] = s.reasonMap.getD p [] ++
        popped.flatMap fun q => g.reasonsFrom p q (g.outputsOf q) := by
  induction fuel generalizing s popped seen with
  | zero =>
    rcases s with ⟨affected, _ | ⟨q, worklist⟩, reasons⟩
    · obtain ⟨rfl, rfl⟩ := Prod.mk.inj (Option.some.inj h)
      exact ⟨_, rfl, hkeys, rfl, fun p => (List.append_nil _).symm⟩
    · cases h
  | succ fuel ih =>
    rcases s with ⟨affected, _ | ⟨q, worklist⟩, reasons⟩
    · obtain ⟨rfl, rfl⟩ := Prod.mk.inj (Option.some.inj h)
      exact ⟨_, rfl, hkeys, rfl, fun p => (List.append_nil _).symm⟩
    · obtain ⟨⟨rest, seen'⟩, hrest, heq⟩ := Option.map_eq_some_iff.mp h
      obtain ⟨rfl, rfl⟩ := Prod.mk.inj heq
      let s₀ : RebuildSearch := ⟨affected, worklist, reasons⟩
      have hturn : toState (toMarks ((g.outputsOf q).toList.foldl (g.noteReaders q) s₀)) =
          State.pushAll ⟨affected, worklist⟩ (g.feeds q) := by
        rw [noteReaders_toMarks, markReaders_toState]
        rfl
      have hkeys₀ : Keyed s₀ := hkeys
      obtain ⟨s', hs', hkeys', hseen, hreasons⟩ := ih (hturn ▸ hrest) (hkeys₀.noteReaders q (g.outputsOf q).toList)
      refine ⟨s', hs', hkeys', hseen, fun p => ?_⟩
      rw [hreasons, noteReaders_reasons, List.append_assoc, List.flatMap_cons]

/-- The reasons of a process from the changed files and from the popped processes, once each. -/
private theorem nodup_reasons {changed : TreeSet Str} {popped : List Int} (hnd : popped.Nodup)
    (hpos : ∀ q ∈ popped, 0 < q)
    (p : Int) :
    (g.reasonsFrom p 0 changed ++ popped.flatMap fun q => g.reasonsFrom p q (g.outputsOf q)).Nodup := by
  refine List.nodup_append.mpr ⟨nodup_reasonsFrom p 0 changed, List.nodup_flatMap.mpr ⟨?_, ?_⟩, ?_⟩
  · exact fun q _ => nodup_reasonsFrom p q _
  · apply hnd.imp
    intro q q' hne r hr hr'
    exact hne (((mem_reasonsFrom _ _ _ _).mp hr).2.2.symm.trans ((mem_reasonsFrom _ _ _ _).mp hr').2.2)
  · rintro r hr _ hr' rfl
    obtain ⟨q, hq, hr'⟩ := List.mem_flatMap.mp hr'
    have hzero := ((mem_reasonsFrom _ _ _ _).mp hr).2.2
    have hsource := ((mem_reasonsFrom _ _ _ _).mp hr').2.2
    have := hpos q hq
    omega

end

/-- Both searches end on every graph. They mark the explored processes, and the reasons are those of the changed files
and of the popped processes. -/
theorem searches_end (g : DependencyGraph) (changed : TreeSet Str) :
    ∃ n popped affected reasons, (∀ fuel, n ≤ fuel → g.rebuildBfs fuel changed = some affected ∧
        g.rebuildBfsReasons fuel changed = some reasons) ∧
      Explored g.feeds (g.readersOfAny changed) popped affected ∧ (∀ p, p ∈ reasons ↔ p ∈ affected) ∧
      ∀ p, reasons.getD p [] = g.reasonsFrom p 0 changed ++
        popped.flatMap fun q => g.reasonsFrom p q (g.outputsOf q) := by
  obtain ⟨popped, affected, hexplore, hdone⟩ := explore_changed g changed (le_refl _)
  have hstart : toState (toMarks (changed.toList.foldl (g.noteReaders 0) {})) =
      State.pushAll {} (g.readersOfAny changed) := by
    rw [noteReaders_toMarks, markReaders_toState]
    rfl
  have hempty : Keyed {} := fun p => iff_of_false Std.TreeMap.not_mem_emptyc Std.TreeSet.not_mem_emptyc
  obtain ⟨s, hs, hkeys, haffected, hreasons⟩ :=
    rebuildLoop_reasons (hstart ▸ hexplore) (hempty.noteReaders 0 changed.toList)
  refine ⟨(allReaders g).card, popped, affected, s.reasonMap, fun fuel hfuel => ⟨?_, ?_⟩, hdone,
    fun p => ?_, fun p => ?_⟩
  · exact rebuildBfs_eq (Exploration.explore_mono hfuel hexplore)
  · rw [rebuildBfsReasons, rebuildLoop_mono hfuel hs, Option.map_some]
  · rw [hkeys, haffected]
  · rw [hreasons, noteReaders_reasons, Std.TreeMap.getD_emptyc, List.nil_append]

theorem rebuildBfsReasons_mono {g : DependencyGraph} {fuel fuel' : Nat} (hle : fuel ≤ fuel') {changed : TreeSet Str}
    {reasons : TreeMap Int (List RebuildReason)} (h : g.rebuildBfsReasons fuel changed = some reasons) :
    g.rebuildBfsReasons fuel' changed = some reasons := by
  obtain ⟨s, hs, rfl⟩ := Option.map_eq_some_iff.mp h
  rw [rebuildBfsReasons, rebuildLoop_mono hle hs, Option.map_some]

/-- The search ends on every graph, and finds the least set that holds the readers of the changed files and is
closed under reading what a member outputs. -/
theorem rebuildBfs_least (g : DependencyGraph) (changed : TreeSet Str) :
    ∃ n affected, (∀ fuel, n ≤ fuel → g.rebuildBfs fuel changed = some affected) ∧
      IsLeast {pids | g.Closed changed pids} {p | p ∈ affected} := by
  obtain ⟨n, popped, affected, reasons, hrun, hdone, -, -⟩ := searches_end g changed
  refine ⟨n, affected, fun fuel hfuel => (hrun fuel hfuel).1, closed_explored hdone, fun pids hclosed p hp => ?_⟩
  exact hclosed.of_reaches ((hdone.reached p).mp ((hdone.seen p).mp hp))

/-- With positive pids the search with reasons marks what the search without marks, and gives as reasons of a process,
once each, the changed files that it reads and the outputs of affected processes that it reads. Every
affected process is thereby explained by a changed file. -/
theorem rebuildBfsReasons_explain (g : DependencyGraph) (hpos : ∀ f, ∀ p ∈ g.readersOf f, 0 < p)
    (changed : TreeSet Str) :
    ∃ n affected reasons, (∀ fuel, n ≤ fuel → g.rebuildBfs fuel changed = some affected ∧
        g.rebuildBfsReasons fuel changed = some reasons) ∧
      (∀ p, p ∈ reasons ↔ p ∈ affected) ∧
      (∀ p, (reasons.getD p []).Nodup ∧ ∀ f q, ⟨f, q⟩ ∈ reasons.getD p [] ↔
        (f ∈ changed ∧ q = 0 ∧ p ∈ g.readersOf f) ∨ (q ∈ affected ∧ f ∈ g.outputsOf q ∧ p ∈ g.readersOf f)) ∧
      ∀ p ∈ affected, Explained changed reasons p := by
  obtain ⟨n, popped, affected, reasons, hrun, hdone, hkeys, hreasons⟩ := searches_end g changed
  have hmem : ∀ p f q, ⟨f, q⟩ ∈ reasons.getD p [] ↔
      (f ∈ changed ∧ q = 0 ∧ p ∈ g.readersOf f) ∨ (q ∈ affected ∧ f ∈ g.outputsOf q ∧ p ∈ g.readersOf f) :=
        fun p f q => by
    simp only [hreasons, List.mem_append, List.mem_flatMap, mem_reasonsFrom, hdone.seen]
    constructor
    · rintro (⟨hf, hp, rfl⟩ | ⟨q', hq', hf, hp, rfl⟩)
      · exact .inl ⟨hf, rfl, hp⟩
      · exact .inr ⟨hq', hf, hp⟩
    · rintro (⟨hf, rfl, hp⟩ | ⟨hq, hf, hp⟩)
      · exact .inl ⟨hf, hp, rfl⟩
      · exact .inr ⟨q, hq, hf, hp, rfl⟩
  have hread : ∀ q ∈ popped, 0 < q := fun q hq => by
    obtain ⟨a, ha, hreach⟩ := (hdone.reached q).mp hq
    rcases hreach.cases_tail with rfl | ⟨b, -, hstep⟩
    · obtain ⟨f, -, hp⟩ := (mem_readersOfAny changed q).mp ha
      exact hpos f q hp
    · obtain ⟨f, -, hp⟩ := (mem_feeds b q).mp hstep
      exact hpos f q hp
  refine ⟨n, affected, reasons, hrun, hkeys, fun p => ⟨?_, hmem p⟩, fun p hp => ?_⟩
  · rw [hreasons]
    exact nodup_reasons hdone.once hread p
  · obtain ⟨a, ha, hreach⟩ := (hdone.reached p).mp ((hdone.seen p).mp hp)
    have hwhole : ∀ x, Worklist.Reaches g.feeds a x → x ∈ affected := fun x hx =>
      (hdone.seen x).mpr ((hdone.reached x).mpr ⟨a, ha, hx⟩)
    clear hp
    induction hreach with
    | refl =>
      obtain ⟨f, hf, hp⟩ := (mem_readersOfAny changed a).mp ha
      exact .changed hf ((hmem a f 0).mpr (.inl ⟨hf, rfl, hp⟩))
    | tail hreach hstep ih =>
      obtain ⟨f, hf, hp⟩ := (mem_feeds _ _).mp hstep
      exact .output ih ((hmem _ f _).mpr (.inr ⟨hwhole _ hreach, hf, hp⟩))

/-- Two processes that read each other's output. -/
private def cycleTables : Tables :=
  { processes := [{ pid := 1, ppid := 0 }, { pid := 2, ppid := 0 }]
    files := [⟨1, "a".toList⟩, ⟨2, "b".toList⟩]
    fileAccesses := [⟨1, 1, 2, 0, 3, 0⟩, ⟨2, 1, 1, 1, 3, 0⟩, ⟨3, 2, 1, 0, 3, 0⟩, ⟨4, 2, 2, 1, 3, 0⟩] }

/-- On the cycle every affected process is explained by the changed file. -/
theorem cycle_explained : ∃ n affected reasons, (∀ fuel, n ≤ fuel →
      (buildDependencyGraph cycleTables).rebuildBfs fuel {"a".toList} = some affected ∧
      (buildDependencyGraph cycleTables).rebuildBfsReasons fuel {"a".toList} = some reasons) ∧
    ∀ p ∈ affected, Explained {"a".toList} reasons p := by
  have hpos : ∀ f, ∀ p ∈ (buildDependencyGraph cycleTables).readersOf f, 0 < p := fun f p hp => by
    obtain ⟨a, ha, rfl, -⟩ := (mem_readersOf cycleTables f p).mp hp
    exact (by decide : ∀ a ∈ cycleTables.accesses, 0 < a.pid) a ha
  obtain ⟨n, affected, reasons, hrun, -, -, hexplained⟩ :=
    rebuildBfsReasons_explain (buildDependencyGraph cycleTables) hpos {"a".toList}
  exact ⟨n, affected, reasons, hrun, hexplained⟩

end DependencyGraph
end Bdtrace
