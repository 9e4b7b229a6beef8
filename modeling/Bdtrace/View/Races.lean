import Bdtrace.View.ProcessTree

/-! `detect_races`: the ancestor test by entry and exit times of a depth-first search. -/
namespace Bdtrace
open Std (TreeMap TreeSet)
open Worklist (Reaches)

structure RaceEntry where
  file : Str
  writerPid : Int
  readerPid : Int
  overlapUs : Int
  deriving DecidableEq, Repr

/-- The triple that a race is about. -/
def RaceEntry.key (e : RaceEntry) : Str × Int × Int := (e.file, e.writerPid, e.readerPid)

structure DfsTimes where
  timer : Int := 0
  dfsIn : TreeMap Int Int := ∅
  dfsOut : TreeMap Int Int := ∅

/-- One pop of the stack: the time of entering (`true`) or of leaving a process. -/
def DfsTimes.stamp (s : DfsTimes) (e : Int × Bool) : DfsTimes :=
  if e.2 then { s with dfsIn := s.dfsIn.insert e.1 s.timer, timer := s.timer + 1 }
  else { s with dfsOut := s.dfsOut.insert e.1 s.timer, timer := s.timer + 1 }

/-- The ancestor check on the times of a writer and a reader. -/
def DfsTimes.ancestor (s : DfsTimes) (w r : Int) : Bool :=
  match s.dfsIn[w]?, s.dfsOut[w]?, s.dfsIn[r]?, s.dfsOut[r]? with
  | some wIn, some wOut, some rIn, some rOut => (wIn ≤ rIn && rOut ≤ wOut) || (rIn ≤ wIn && wOut ≤ rOut)
  | _, _, _, _ => false

namespace DependencyGraph
variable (g : DependencyGraph)

/-- The processes whose parent has no row. -/
def roots : List Int := (g.procMap.toList.filter fun e => e.2.ppid ∉ g.procMap).map (·.1)

/-- The search with an explicit stack, whose top is the head of the list. -/
def dfsLoop : Nat → List (Int × Bool) → DfsTimes → Option DfsTimes
  | _, [], s => some s
  | 0, _ :: _, _ => none
  | fuel + 1, (pid, true) :: stack, s =>
    dfsLoop fuel ((g.childrenOf pid).map (·, true) ++ (pid, false) :: stack) (s.stamp (pid, true))
  | fuel + 1, (pid, false) :: stack, s => dfsLoop fuel stack (s.stamp (pid, false))

/-- The body of the innermost loop. -/
def raceOf (times : DfsTimes) (file : Str) (w : Int) (wp : ProcessRecord) (r : Int) : Option RaceEntry :=
  if r = w then none
  else match g.procMap[r]? with
    | none => none
    | some rp =>
      let overlapStart := if wp.startTimeUs > rp.startTimeUs then wp.startTimeUs else rp.startTimeUs
      let overlapEnd := if wp.endTimeUs < rp.endTimeUs then wp.endTimeUs else rp.endTimeUs
      let overlap := overlapEnd - overlapStart
      if overlap ≤ 0 then none
      else if times.ancestor w r then none
      else some ⟨file, w, r, overlap⟩

/-- The loops over the writers and the readers of one file. -/
def fileRaces (times : DfsTimes) (file : Str) (readers : TreeSet Int) : List RaceEntry :=
  match g.fileToWriters[file]? with
  | none => []
  | some writers => writers.toList.flatMap fun w => match g.procMap[w]? with
    | none => []
    | some wp => readers.toList.filterMap (g.raceOf times file w wp)

/-- The loop over the files; `now i` is what the clock says in its turn `i`. -/
def raceLoop (times : DfsTimes) (deadlineUs : Int) (now : Nat → Int) :
    Nat → List (Str × TreeSet Int) → List RaceEntry → Bool × List RaceEntry
  | _, [], result => (true, result)
  | i, (file, readers) :: rest, result =>
    if deadlineUs > 0 ∧ now i > deadlineUs then (false, result)
    else raceLoop times deadlineUs now (i + 1) rest (result ++ g.fileRaces times file readers)

def detectRaces (fuel : Nat) (deadlineUs : Int) (now : Nat → Int) (result : List RaceEntry) :
    Option (Bool × List RaceEntry) :=
  (g.dfsLoop fuel (g.roots.map (·, true)).reverse {}).map fun times =>
    g.raceLoop times deadlineUs now 0 g.fileToReaders.toList result

/-! ### Times -/

end DependencyGraph

/-- The times of entering or of leaving. -/
def DfsTimes.of (s : DfsTimes) (entering : Bool) : TreeMap Int Int := if entering then s.dfsIn else s.dfsOut

private theorem DfsTimes.stamp_of (s : DfsTimes) (e : Int × Bool) (p : Int) (entering : Bool) :
    ((s.stamp e).of entering)[p]? = if e = (p, entering) then some s.timer else (s.of entering)[p]? := by
  obtain ⟨q, b⟩ := e
  by_cases hq : q = p
  · subst hq
    cases b <;> cases entering <;> simp [stamp, of]
  · have hne : compare q p ≠ .eq := by simpa using hq
    cases b <;> cases entering <;> simp [stamp, of, hq, Std.TreeMap.getElem?_insert]

private theorem DfsTimes.stamp_timer (s : DfsTimes) (e : Int × Bool) : (s.stamp e).timer = s.timer + 1 := by
  rw [stamp]
  split <;> rfl

/-- The time of an event is its position among the popped ones. -/
private theorem DfsTimes.foldl_stamp_of {events : List (Int × Bool)} (hnd : events.Nodup) (s : DfsTimes) (p : Int)
    (entering : Bool) :
    ((events.foldl stamp s).of entering)[p]? =
      if (p, entering) ∈ events then some (s.timer + events.idxOf (p, entering)) else (s.of entering)[p]? := by
  induction events generalizing s with
  | nil => rfl
  | cons e events ih =>
    obtain ⟨hnot, hnd⟩ := List.nodup_cons.mp hnd
    rw [List.foldl_cons, ih hnd, stamp_of, stamp_timer]
    by_cases heq : e = (p, entering)
    · subst heq
      simp [hnot]
    · by_cases hmem : (p, entering) ∈ events
      · rw [if_pos hmem, if_pos (List.mem_cons_of_mem _ hmem), List.idxOf_cons_ne _ heq]
        push_cast
        congr 1
        omega
      · rw [if_neg hmem, if_neg heq, if_neg fun h => (List.mem_cons.mp h).elim (fun h => heq h.symm) hmem]

namespace DependencyGraph
section
variable {g : DependencyGraph}

private theorem dfsLoop_eq (fuel : Nat) (stack : List (Int × Bool)) (s : DfsTimes) :
    g.dfsLoop fuel stack s = (Tours.unwind g.childrenOf fuel stack).map fun events =>
      events.foldl DfsTimes.stamp s := by
  induction fuel generalizing stack s with
  | zero => cases stack <;> rfl
  | succ fuel ih =>
    rcases stack with _ | ⟨⟨p, _ | _⟩, stack⟩
    · rfl
    · rw [dfsLoop, ih, Tours.unwind, Option.map_map]
      rfl
    · rw [dfsLoop, ih, Tours.unwind, Option.map_map]
      rfl

/-- Without a deadline all files are treated. -/
private theorem raceLoop_eq (times : DfsTimes) {deadlineUs : Int} (hd : deadlineUs ≤ 0) (now : Nat → Int) (i : Nat)
    (files : List (Str × TreeSet Int)) (result : List RaceEntry) :
    g.raceLoop times deadlineUs now i files result =
      (true, result ++ files.flatMap fun e => g.fileRaces times e.1 e.2) := by
  induction files generalizing i result with
  | nil => rw [raceLoop, List.flatMap_nil, List.append_nil]
  | cons e files ih =>
    rw [raceLoop, if_neg (by omega), ih, List.flatMap_cons, List.append_assoc]

private theorem raceOf_eq_some (times : DfsTimes) (file : Str) (w : Int) (wp : ProcessRecord)
    (r : Int) (e : RaceEntry) :
    g.raceOf times file w wp r = some e ↔ r ≠ w ∧ ∃ rp, g.procMap[r]? = some rp ∧
      e = ⟨file, w, r, min wp.endTimeUs rp.endTimeUs - max wp.startTimeUs rp.startTimeUs⟩ ∧ 0 < e.overlapUs ∧
      times.ancestor w r = false := by
  have hmax : ∀ a b : Int, (if a > b then a else b) = max a b := fun a b => by
    rw [max_comm, max_def]
    split <;> split <;> omega
  have hmin : ∀ a b : Int, (if a < b then a else b) = min a b := fun a b => by
    rw [min_def]
    split <;> split <;> omega
  rw [raceOf]
  by_cases hrw : r = w
  · rw [if_pos hrw]
    exact iff_of_false (fun h => by cases h) fun h => h.1 hrw
  · rw [if_neg hrw, and_iff_right hrw]
    cases hr : g.procMap[r]? with
    | none => exact iff_of_false (fun h => by cases h) fun ⟨rp, hrp, _⟩ => by cases hrp
    | some rp =>
      simp only [hmax, hmin, Option.some.injEq, exists_eq_left']
      by_cases hpos : min wp.endTimeUs rp.endTimeUs - max wp.startTimeUs rp.startTimeUs ≤ 0
      · rw [if_pos hpos]
        refine iff_of_false (fun h => by cases h) ?_
        rintro ⟨rfl, hlt, -⟩
        exact absurd hpos (not_le.mpr hlt)
      · rw [if_neg hpos]
        cases times.ancestor w r with
        | true => exact iff_of_false (fun h => by cases h) fun h => by cases h.2.2
        | false =>
          constructor
          · intro h
            obtain rfl := Option.some.inj h
            exact ⟨rfl, not_le.mp hpos, rfl⟩
          · rintro ⟨rfl, -, -⟩
            rfl

private theorem mem_fileRaces (times : DfsTimes) (file : Str) (readers : TreeSet Int) (e : RaceEntry) :
    e ∈ g.fileRaces times file readers ↔ ∃ w ∈ g.writersOf file, ∃ wp, g.procMap[w]? = some wp ∧
      ∃ r ∈ readers, g.raceOf times file w wp r = some e := by
  rw [fileRaces, writersOf, Std.TreeMap.getD_eq_getD_getElem?]
  cases g.fileToWriters[file]? with
  | none => simp
  | some writers =>
    simp only [Option.getD_some, List.mem_flatMap, Std.TreeSet.mem_toList]
    refine exists_congr fun w => and_congr_right fun _ => ?_
    cases g.procMap[w]? with
    | none => simp
    | some wp => simp

private theorem raceOf_key {times : DfsTimes} {file : Str} {w : Int} {wp : ProcessRecord} {r : Int} {e : RaceEntry}
    (h : g.raceOf times file w wp r = some e) : e.key = (file, w, r) := by
  obtain ⟨-, rp, -, rfl, -⟩ := (raceOf_eq_some times file w wp r e).mp h
  rfl

private theorem fileRaces_keys (times : DfsTimes) (file : Str) (readers : TreeSet Int) :
    ((g.fileRaces times file readers).map RaceEntry.key).Nodup ∧
      ∀ e ∈ g.fileRaces times file readers, e.file = file := by
  refine ⟨?_, fun e he => ?_⟩
  · rw [List.Nodup, List.pairwise_map, fileRaces]
    split
    · exact .nil
    · rename_i writers _
      refine List.pairwise_flatMap.mpr ⟨fun w _ => ?_, (nodup_toList writers).imp fun hne x hx y hy heq => ?_⟩
      · split
        · exact .nil
        · refine List.pairwise_filterMap.mpr ((nodup_toList readers).imp fun {r r'} hne x hx y hy heq => hne ?_)
          rw [raceOf_key hx, raceOf_key hy] at heq
          exact (Prod.mk.inj (Prod.mk.inj heq).2).2
      · have hwriter : ∀ {w : Int} {x : RaceEntry}, x ∈ (match g.procMap[w]? with
            | none => []
            | some wp => readers.toList.filterMap (g.raceOf times file w wp)) → x.writerPid = w := fun {w x} hx => by
          split at hx
          · cases hx
          · obtain ⟨r, -, hr⟩ := List.mem_filterMap.mp hx
            exact (Prod.mk.inj (Prod.mk.inj (raceOf_key hr)).2).1
        have hpids := (Prod.mk.inj (Prod.mk.inj heq).2).1
        exact hne ((hwriter hx).symm.trans (hpids.trans (hwriter hy)))
  · obtain ⟨w, -, wp, -, r, -, hr⟩ := (mem_fileRaces times file readers e).mp he
    exact (Prod.mk.inj (raceOf_key hr)).1

end

section
variable {t : Tables}

private theorem mem_roots (hk : t.pids.Nodup) (p : Int) :
    p ∈ (buildDependencyGraph t).roots ↔ ∃ r ∈ t.processes, r.ppid ∉ t.pids ∧ r.pid = p := by
  simp only [roots, List.mem_map, List.mem_filter, Std.TreeMap.mem_toList_iff_getElem?_eq_some, Prod.exists,
    decide_eq_true_eq, mem_procMap_iff hk, getElem?_procMap hk]
  constructor
  · rintro ⟨q, r, ⟨⟨hr, rfl⟩, hout⟩, rfl⟩
    exact ⟨r, hr, hout, rfl⟩
  · rintro ⟨r, hr, hout, rfl⟩
    exact ⟨r.pid, r, ⟨⟨hr, rfl⟩, hout⟩, rfl⟩

/-- The search ends, and its times tell which of two rows is above the other. -/
private theorem times_built (hk : t.pids.Nodup) (h : t.Acyclic) : ∃ n, ∀ fuel, n ≤ fuel → ∃ times,
    (buildDependencyGraph t).dfsLoop fuel ((buildDependencyGraph t).roots.map (·, true)).reverse {} = some times ∧
      ∀ w ∈ t.pids, ∀ r ∈ t.pids, times.ancestor w r = true ↔
        Relation.ReflTransGen t.Child w r ∨ Relation.ReflTransGen t.Child r w := by
  have hforest := isForest_built hk h
  let events := (buildDependencyGraph t).roots.reverse.flatMap (Tours.tour hforest.wellFounded)
  have hstack : ((buildDependencyGraph t).roots.map (·, true)).reverse.flatMap (Tours.expand hforest.wellFounded) =
      events := by
    rw [← List.map_reverse, Tours.flatMap_expand]
  have hnd : events.Nodup := by
    apply hforest.nodup_tours
    · have hkeys : ((buildDependencyGraph t).procMap.toList.map (·.1)).Nodup := by
        rw [Std.TreeMap.map_fst_toList_eq_keys]
        exact Std.TreeMap.nodup_keys
      exact List.nodup_reverse.mpr (hkeys.sublist (List.filter_sublist.map _))
    · intro a ha b hb hreach
      obtain ⟨r, hr, -, rfl⟩ := (mem_roots hk a).mp (List.mem_reverse.mp ha)
      obtain ⟨s, hs, hout, rfl⟩ := (mem_roots hk b).mp (List.mem_reverse.mp hb)
      exact root_top hk (List.mem_map_of_mem hr) hs hout ((reaches_iff_child _ _).mp hreach)
  have hmet : ∀ p ∈ t.pids, ∀ entering, (p, entering) ∈ events := fun p hp entering => by
    obtain ⟨r, hr, hout, hreach⟩ := exists_root h hp
    refine List.mem_flatMap.mpr ⟨r.pid, List.mem_reverse.mpr ((mem_roots hk r.pid).mpr ⟨r, hr, hout, rfl⟩), ?_⟩
    exact (Tours.mem_tour _ _ _).mpr ((reaches_iff_child r.pid p).mpr hreach)
  refine ⟨events.length, fun fuel hfuel => ⟨events.foldl DfsTimes.stamp {}, ?_, fun w hw r hr => ?_⟩⟩
  · rw [dfsLoop_eq, Tours.unwind_eq hforest.wellFounded (by rwa [hstack]), hstack, Option.map_some]
  · have hin : ∀ p ∈ t.pids, (events.foldl DfsTimes.stamp {}).dfsIn[p]? = some (events.idxOf (p, true) : Int) :=
      fun p hp => by
      have hof := DfsTimes.foldl_stamp_of hnd {} p true
      rwa [if_pos (hmet p hp true), Int.zero_add] at hof
    have hout : ∀ p ∈ t.pids, (events.foldl DfsTimes.stamp {}).dfsOut[p]? = some (events.idxOf (p, false) : Int) :=
      fun p hp => by
      have hof := DfsTimes.foldl_stamp_of hnd {} p false
      rwa [if_pos (hmet p hp false), Int.zero_add] at hof
    simp only [DfsTimes.ancestor, hin w hw, hout w hw, hin r hr, hout r hr, Bool.or_eq_true, Bool.and_eq_true,
      decide_eq_true_eq, Int.ofNat_le, ← reaches_iff_child]
    rw [Tours.reaches_iff_between hforest.wellFounded hnd (hmet w hw true) (hmet r hr true),
      Tours.reaches_iff_between hforest.wellFounded hnd (hmet r hr true) (hmet w hw true)]

private theorem nodup_raceKeys (g : DependencyGraph) (times : DfsTimes) :
    ((g.fileToReaders.toList.flatMap fun e => g.fileRaces times e.1 e.2).map RaceEntry.key).Nodup := by
  have hfiles : g.fileToReaders.toList.Pairwise fun a b => a.1 ≠ b.1 :=
    g.fileToReaders.distinct_keys_toList.imp fun hne heq => hne (Std.compare_eq_iff_eq.mpr heq)
  rw [List.Nodup, List.pairwise_map]
  refine List.pairwise_flatMap.mpr ⟨fun e _ => List.pairwise_map.mp (fileRaces_keys times e.1 e.2).1, ?_⟩
  refine hfiles.imp fun {a b} hne x hx y hy heq => hne ?_
  exact ((fileRaces_keys times a.1 a.2).2 x hx).symm.trans
    ((Prod.mk.inj heq).1.trans ((fileRaces_keys times b.1 b.2).2 y hy))

/-- One process writes the file and another reads it while both run, and neither is an ancestor of the other. -/
structure IsRace (t : Tables) (e : RaceEntry) : Prop where
  writes : e.writerPid ∈ (buildDependencyGraph t).writersOf e.file
  reads : e.readerPid ∈ (buildDependencyGraph t).readersOf e.file
  differ : e.writerPid ≠ e.readerPid
  overlap : ∃ w ∈ t.processes, ∃ r ∈ t.processes, w.pid = e.writerPid ∧ r.pid = e.readerPid ∧
    e.overlapUs = min w.endTimeUs r.endTimeUs - max w.startTimeUs r.startTimeUs
  positive : 0 < e.overlapUs
  above : ¬ Relation.TransGen t.Child e.writerPid e.readerPid
  below : ¬ Relation.TransGen t.Child e.readerPid e.writerPid

private theorem mem_races_iff (hk : t.pids.Nodup) {times : DfsTimes}
    (htimes : ∀ w ∈ t.pids, ∀ r ∈ t.pids, times.ancestor w r = true ↔
      Relation.ReflTransGen t.Child w r ∨ Relation.ReflTransGen t.Child r w) (e : RaceEntry) :
    (e ∈ (buildDependencyGraph t).fileToReaders.toList.flatMap fun f =>
      (buildDependencyGraph t).fileRaces times f.1 f.2) ↔
      IsRace t e := by
  simp only [List.mem_flatMap, mem_fileRaces, raceOf_eq_some, Prod.exists, Std.TreeMap.mem_toList_iff_getElem?_eq_some,
    getElem?_procMap hk]
  constructor
  · rintro ⟨file, readers, hfile, w, hw, wp, ⟨hwp, rfl⟩, r, hr, hne, rp, ⟨hrp, rfl⟩, rfl, hpos, hanc⟩
    have hnot := mt (htimes wp.pid (List.mem_map_of_mem hwp) rp.pid (List.mem_map_of_mem hrp)).mpr
      (by rw [hanc]; decide)
    refine ⟨hw, ?_, Ne.symm hne, ⟨wp, hwp, rp, hrp, rfl, rfl, rfl⟩, hpos, fun h => ?_, fun h => ?_⟩
    · rwa [readersOf, Std.TreeMap.getD_eq_getD_getElem?, hfile]
    · exact hnot (.inl h.to_reflTransGen)
    · exact hnot (.inr h.to_reflTransGen)
  · rintro ⟨hw, hr, hne, ⟨wp, hwp, rp, hrp, hwpid, hrpid, hover⟩, hpos, habove, hbelow⟩
    obtain ⟨file, w, r, overlap⟩ := e
    subst hwpid hrpid
    rw [readersOf, Std.TreeMap.getD_eq_getD_getElem?] at hr
    cases hfile : (buildDependencyGraph t).fileToReaders[file]? with
    | none =>
      rw [hfile] at hr
      exact absurd hr Std.TreeSet.not_mem_emptyc
    | some readers =>
      rw [hfile] at hr
      refine ⟨file, readers, hfile, wp.pid, hw, wp, ⟨hwp, rfl⟩, rp.pid, hr, Ne.symm hne, rp, ⟨hrp, rfl⟩, ?_, hpos, ?_⟩
      · exact congrArg (RaceEntry.mk file wp.pid rp.pid) hover
      · rw [← Bool.not_eq_true, htimes wp.pid (List.mem_map_of_mem hwp) rp.pid (List.mem_map_of_mem hrp)]
        rintro (h | h)
        · exact (Relation.reflTransGen_iff_eq_or_transGen.mp h).elim (fun heq => hne heq.symm) habove
        · exact (Relation.reflTransGen_iff_eq_or_transGen.mp h).elim hne hbelow

end

/-- Without a deadline and on acyclic parent links the races are reported, each once. -/
theorem detectRaces_exact (t : Tables) (hk : t.pids.Nodup) (h : t.Acyclic) (deadlineUs : Int) (hd : deadlineUs ≤ 0)
    (now : Nat → Int) : ∃ n, ∀ fuel, n ≤ fuel → ∃ races,
      (buildDependencyGraph t).detectRaces fuel deadlineUs now [] = some (true, races) ∧
        (races.map RaceEntry.key).Nodup ∧ ∀ e, e ∈ races ↔ IsRace t e := by
  obtain ⟨n, hn⟩ := times_built hk h
  refine ⟨n, fun fuel hfuel => ?_⟩
  obtain ⟨times, htimes, hanc⟩ := hn fuel hfuel
  refine ⟨_, ?_, nodup_raceKeys (buildDependencyGraph t) times, mem_races_iff hk hanc⟩
  rw [detectRaces, htimes, Option.map_some, raceLoop_eq times hd, List.nil_append]

/-- Two siblings of which one writes what the other reads while both run. -/
private def siblingTables : Tables :=
  { processes := [{ pid := 1, ppid := 0, startTimeUs := 1, endTimeUs := 9 },
      { pid := 2, ppid := 1, startTimeUs := 2, endTimeUs := 6 },
        { pid := 3, ppid := 1, startTimeUs := 4, endTimeUs := 8 }]
    files := [⟨1, "a".toList⟩]
    fileAccesses := [⟨1, 2, 1, 1, 3, 0⟩, ⟨2, 3, 1, 0, 3, 0⟩] }

/-- Their race is reported with an overlap of 2. -/
theorem sibling_race : ∃ n, ∀ fuel, n ≤ fuel → ∃ races,
    (buildDependencyGraph siblingTables).detectRaces fuel 0 (fun _ => 0) [] = some (true, races) ∧
      ⟨"a".toList, 2, 3, 2⟩ ∈ races := by
  have hleaf : ∀ p ∈ [2, 3], ∀ q, ¬ Relation.TransGen siblingTables.Child p q := fun p hp q hpq => by
    obtain ⟨c, ⟨r, hr, hpp, -⟩, -⟩ := Relation.TransGen.head'_iff.mp hpq
    exact (by decide : ∀ r ∈ siblingTables.processes, ∀ p ∈ [2, 3], r.ppid ≠ p) r hr p hp hpp
  obtain ⟨n, hn⟩ := detectRaces_exact siblingTables (by decide) (Tables.acyclic_of_rank Int.toNat (by decide)) 0 le_rfl
    fun _ => 0
  refine ⟨n, fun fuel hfuel => ?_⟩
  obtain ⟨races, hraces, -, hmem⟩ := hn fuel hfuel
  refine ⟨races, hraces, (hmem _).mpr ⟨by decide +kernel, by decide +kernel, by decide, ?_, by decide,
    hleaf 2 (by decide) 3, hleaf 3 (by decide) 2⟩⟩
  exact ⟨{ pid := 2, ppid := 1, startTimeUs := 2, endTimeUs := 6 }, by decide,
    { pid := 3, ppid := 1, startTimeUs := 4, endTimeUs := 8 }, by decide, rfl, rfl, rfl⟩

end DependencyGraph
end Bdtrace
