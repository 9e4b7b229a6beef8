import Bdtrace.General.Descents
import Bdtrace.Web.TimelineDepths

/-! The critical path: from the root with the longest span down to the child that ends last, and so on. -/
namespace Bdtrace
open Std (TreeMap)

/-- What `bdview critical` prints and `GET /api/critical-path` answers; `outOfBounds` stands for the read of `roots[0]`
from a vector without elements. -/
inductive CriticalAnswer where
  | noProcesses
  | outOfBounds
  | found (totalUs : Int) (path : List ProcessRecord)
  deriving DecidableEq, Repr

section Source
variable (procMap : TreeMap Int ProcessRecord) (children : TreeMap Int (List Int))

/-- The loop over the roots, which keeps the longest span so far with its root. -/
def criticalRoot (first : Int) (roots : List Int) : Int :=
  (roots.foldl (fun (best : Int × Int) pid =>
    let span := (procMap.getD pid {}).endTimeUs - (procMap.getD pid {}).startTimeUs
    if span > best.1 then (span, pid) else best) (0, first)).2

/-- The loop over the children, which keeps the latest end so far with its child. -/
def bestChild (first : Int) (rest : List Int) : Int :=
  (rest.foldl (fun (best : Int × Int) pid =>
    if (procMap.getD pid {}).endTimeUs > best.1 then ((procMap.getD pid {}).endTimeUs, pid) else best)
    ((procMap.getD first {}).endTimeUs, first)).2

/-- `while (true)`: down to a process without children. -/
def criticalLoop : Nat → Int → Option (List ProcessRecord)
  | 0, _ => none
  | fuel + 1, cur =>
    match children.getD cur [] with
    | [] => some [procMap.getD cur {}]
    | first :: rest => (criticalLoop fuel (bestChild procMap first rest)).map (procMap.getD cur {} :: ·)

end Source

/-- `cmd_critical` and `handle_critical_path`. -/
def criticalPath (fuel : Nat) (t : Tables) : Option CriticalAnswer :=
  let procs := t.allProcesses
  let procMap := procs.foldl (fun m r => m.insert r.pid r) (∅ : TreeMap Int ProcessRecord)
  let children := procs.foldl addChild ∅
  match procs, rootPids procs with
  | [], _ => some .noProcesses
  | _, [] => some .outOfBounds
  | _, first :: roots =>
    let root := criticalRoot procMap first (first :: roots)
    (criticalLoop procMap children fuel root).map
      (.found ((procMap.getD root {}).endTimeUs - (procMap.getD root {}).startTimeUs))

/-! ### The loops -/

private theorem getElem?_rowMap {procs : List ProcessRecord} (hnd : (procs.map (·.pid)).Nodup) {r : ProcessRecord}
    (hr : r ∈ procs) :
    (procs.foldl (fun m r => m.insert r.pid r) (∅ : TreeMap Int ProcessRecord))[r.pid]? = some r := by
  induction procs using List.reverseRecOn with
  | nil => cases hr
  | append_singleton procs s ih =>
    rw [List.foldl_append, List.foldl_cons, List.foldl_nil, Std.TreeMap.getElem?_insert]
    rw [List.map_append, List.nodup_append] at hnd
    obtain ⟨hprocs, -, hapart⟩ := hnd
    rcases List.mem_append.mp hr with hr | hr
    · have hne : compare s.pid r.pid ≠ .eq := by
        have hpid := hapart r.pid (List.mem_map_of_mem hr) s.pid (by simp)
        simpa using hpid.symm
      rw [if_neg hne]
      exact ih hprocs hr
    · obtain rfl := List.mem_singleton.mp hr
      simp

/-- A loop that keeps the best so far ends with an element that no other one beats. -/
private theorem foldl_best {α : Type} (score : α → Int) (l : List α) (start : Int × α) :
    let best := l.foldl (fun (best : Int × α) a => if score a > best.1 then (score a, a) else best) start
    start.1 ≤ best.1 ∧ (∀ a ∈ l, score a ≤ best.1) ∧ (best = start ∨ best.2 ∈ l ∧ score best.2 = best.1) := by
  induction l generalizing start with
  | nil => exact ⟨le_rfl, fun a ha => absurd ha List.not_mem_nil, .inl rfl⟩
  | cons b l ih =>
    simp only [List.foldl_cons]
    by_cases h : score b > start.1
    · rw [if_pos h]
      obtain ⟨hstart, hall, hbest⟩ := ih (score b, b)
      refine ⟨le_trans h.le hstart, fun a ha => ?_, .inr ?_⟩
      · rcases List.mem_cons.mp ha with rfl | ha
        · exact hstart
        · exact hall a ha
      · rcases hbest with hbest | ⟨hmem, hscore⟩
        · simp [hbest]
        · exact ⟨List.mem_cons_of_mem b hmem, hscore⟩
    · rw [if_neg h]
      obtain ⟨hstart, hall, hbest⟩ := ih start
      refine ⟨hstart, fun a ha => ?_, hbest.imp_right fun hb => ⟨List.mem_cons_of_mem b hb.1, hb.2⟩⟩
      rcases List.mem_cons.mp ha with rfl | ha
      · exact le_trans (not_lt.mp h) hstart
      · exact hall a ha

/-! ### The path -/

def ProcessRecord.span (r : ProcessRecord) : Int := r.endTimeUs - r.startTimeUs

/-- Rows from a root down to a process without children: no root has a longer span, and no sibling of a process on the
path ends later than it. -/
structure Tables.IsCriticalPath (t : Tables) (path : List ProcessRecord) : Prop where
  stored : ∀ r ∈ path, r ∈ t.processes
  once : (path.map (·.pid)).Nodup
  root : ∃ root ∈ path.head?, root.ppid ∉ t.pids ∧
    ∀ s ∈ t.processes, s.ppid ∉ t.pids → s.span ≤ root.span ∨ s.span ≤ 0
  links : path.IsChain fun p c => c.ppid = p.pid ∧ ∀ s ∈ t.processes, s.ppid = p.pid → s.endTimeUs ≤ c.endTimeUs
  leaf : ∀ r ∈ path.getLast?, ∀ s ∈ t.processes, s.ppid ≠ r.pid

section Proofs
variable {t : Tables}

private def rowsByPid (t : Tables) : TreeMap Int ProcessRecord := t.allProcesses.foldl (fun m r => m.insert r.pid r) ∅

private def childLists (t : Tables) : TreeMap Int (List Int) := t.allProcesses.foldl addChild ∅

private theorem rowsByPid_of_mem (hk : t.pids.Nodup) {r : ProcessRecord} (hr : r ∈ t.processes) :
    (rowsByPid t).getD r.pid {} = r := by
  have hget := getElem?_rowMap (allProcesses_nodup hk) ((mem_allProcesses r).mpr hr)
  rw [Std.TreeMap.getD_eq_getD_getElem?, rowsByPid, hget, Option.getD_some]

private theorem mem_childLists (p c : Int) : c ∈ (childLists t).getD p [] ↔ t.Child p c := by
  rw [childLists, getD_foldl_addChild]
  simp only [Std.TreeMap.getD_emptyc, List.nil_append, List.mem_map, List.mem_filter,
    decide_eq_true_eq, mem_allProcesses]
  constructor
  · rintro ⟨r, ⟨hr, hppid⟩, hpid⟩
    exact ⟨r, hr, hppid, hpid⟩
  · rintro ⟨r, hr, hppid, hpid⟩
    exact ⟨r, ⟨hr, hppid⟩, hpid⟩

/-- The process that the loop goes down to. -/
private def nextDown (t : Tables) (cur : Int) : Option Int :=
  match (childLists t).getD cur [] with
  | [] => none
  | first :: rest => some (bestChild (rowsByPid t) first rest)

private theorem criticalLoop_eq (fuel : Nat) (cur : Int) : criticalLoop (rowsByPid t) (childLists t) fuel cur =
    (Descents.descend (nextDown t) fuel cur).map (List.map fun p => (rowsByPid t).getD p {}) := by
  induction fuel generalizing cur with
  | zero => rfl
  | succ fuel ih =>
    rw [criticalLoop, Descents.descend, nextDown]
    cases (childLists t).getD cur [] with
    | nil => rfl
    | cons first rest =>
      dsimp only
      rw [ih]
      cases Descents.descend (nextDown t) fuel (bestChild (rowsByPid t) first rest) <;> rfl

/-- The loop goes down to a child, and none of the children ends later. -/
private theorem nextDown_spec (hk : t.pids.Nodup) {p c : Int} (h : nextDown t p = some c) :
    ∃ r ∈ t.processes, r.pid = c ∧ r.ppid = p ∧ ∀ s ∈ t.processes, s.ppid = p → s.endTimeUs ≤ r.endTimeUs := by
  rw [nextDown] at h
  split at h
  · cases h
  · rename_i first rest hkids
    obtain rfl := Option.some.inj h
    have hchild : ∀ c, c ∈ first :: rest ↔ t.Child p c := fun c => hkids ▸ mem_childLists p c
    obtain ⟨hfirst, hrest, hbest⟩ := foldl_best (fun pid => ((rowsByPid t).getD pid {}).endTimeUs) rest
      (((rowsByPid t).getD first {}).endTimeUs, first)
    rw [bestChild]
    generalize List.foldl _ _ rest = best at hfirst hrest hbest ⊢
    have hmem : best.2 ∈ first :: rest ∧ ((rowsByPid t).getD best.2 {}).endTimeUs = best.1 := by
      rcases hbest with rfl | ⟨hin, hscore⟩
      · exact ⟨List.mem_cons_self, rfl⟩
      · exact ⟨List.mem_cons_of_mem first hin, hscore⟩
    obtain ⟨r, hr, hppid, hpid⟩ := (hchild best.2).mp hmem.1
    refine ⟨r, hr, hpid, hppid, fun s hs hsp => ?_⟩
    have hlatest : ((rowsByPid t).getD s.pid {}).endTimeUs ≤ best.1 := by
      rcases List.mem_cons.mp ((hchild s.pid).mpr ⟨s, hs, hsp, rfl⟩) with heq | hin
      · rw [heq]
        exact hfirst
      · exact hrest s.pid hin
    rw [rowsByPid_of_mem hk hs] at hlatest
    rw [← hmem.2, ← hpid, rowsByPid_of_mem hk hr] at hlatest
    exact hlatest

private theorem nextDown_none {p : Int} (h : nextDown t p = none) : ∀ s ∈ t.processes, s.ppid ≠ p := by
  intro s hs hsp
  rw [nextDown] at h
  split at h
  · rename_i hkids
    have hin := (mem_childLists p s.pid).mpr ⟨s, hs, hsp, rfl⟩
    rw [hkids] at hin
    cases hin
  · cases h

theorem mem_rootPids (p : Int) : p ∈ rootPids t.allProcesses ↔ ∃ r ∈ t.processes, r.pid = p ∧ r.ppid ∉ t.pids := by
  have hpids : ∀ q, q ∈ t.allProcesses.map (·.pid) ↔ q ∈ t.pids := fun q =>
    ((List.perm_insertionSort _ _).map _).mem_iff
  simp only [rootPids, List.mem_map, List.mem_filter, mem_allProcesses, decide_eq_true_eq, ← hpids]
  constructor
  · rintro ⟨r, ⟨hr, hout⟩, hpid⟩
    exact ⟨r, hr, hpid, hout⟩
  · rintro ⟨r, hr, hpid, hout⟩
    exact ⟨r, ⟨hr, hout⟩, hpid⟩

/-- The root that is chosen among the candidates: only one without a positive span can be shorter than another. -/
private theorem criticalRoot_spec (first : Int) (rest : List Int) :
    criticalRoot (rowsByPid t) first (first :: rest) ∈ first :: rest ∧
      ∀ p ∈ first :: rest, ((rowsByPid t).getD p {}).span ≤
          ((rowsByPid t).getD (criticalRoot (rowsByPid t) first (first :: rest)) {}).span ∨
        ((rowsByPid t).getD p {}).span ≤ 0 := by
  have hloop := foldl_best (fun pid => ((rowsByPid t).getD pid {}).span) (first :: rest) (0, first)
  generalize hbest : List.foldl _ _ (first :: rest) = best at hloop
  obtain ⟨-, hall, hstart | ⟨hin, hscore⟩⟩ := hloop
  · have hroot : criticalRoot (rowsByPid t) first (first :: rest) = first := by
      rw [hstart] at hbest
      exact congrArg (·.2) hbest
    rw [hroot]
    refine ⟨List.mem_cons_self, fun p hp => .inr ?_⟩
    have hp := hall p hp
    rwa [hstart] at hp
  · have hroot : criticalRoot (rowsByPid t) first (first :: rest) = best.2 := congrArg (·.2) hbest
    rw [hroot]
    refine ⟨hin, fun p hp => .inl ?_⟩
    rw [hscore]
    exact hall p hp

/-- A child whose parent has a row. -/
private def Tables.StoredChild (t : Tables) (p c : Int) : Prop := p ∈ t.pids ∧ t.Child p c

/-- Down from a root, for which no parent has a row. -/
private theorem criticalLoop_path (hk : t.pids.Nodup) {root : ProcessRecord} (hroot : root ∈ t.processes)
    (hout : root.ppid ∉ t.pids) (hlongest : ∀ s ∈ t.processes, s.ppid ∉ t.pids → s.span ≤ root.span ∨ s.span ≤ 0)
    {fuel : Nat} (hfuel : t.pids.length ≤ fuel) :
    ∃ path, criticalLoop (rowsByPid t) (childLists t) fuel root.pid = some path ∧ path.head? = some root ∧
      t.IsCriticalPath path := by
  have hin : ∀ {r}, r ∈ t.processes → r.pid ∈ t.pids.toFinset :=
    fun hr => List.mem_toFinset.mpr (List.mem_map_of_mem hr)
  have hrow : ∀ p ∈ t.pids, (rowsByPid t).getD p {} ∈ t.processes ∧ ((rowsByPid t).getD p {}).pid = p := by
    intro p hp
    obtain ⟨r, hr, rfl⟩ := List.mem_map.mp hp
    rw [rowsByPid_of_mem hk hr]
    exact ⟨hr, rfl⟩
  have hpick : ∀ p ∈ t.pids.toFinset, ∀ c, nextDown t p = some c → t.StoredChild p c := by
    intro p hp c h
    obtain ⟨r, hr, hc, hpp, -⟩ := nextDown_spec hk h
    exact ⟨List.mem_toFinset.mp hp, r, hr, hpp, hc⟩
  have hstored : ∀ p c, t.StoredChild p c → c ∈ t.pids.toFinset := by
    rintro p c ⟨-, r, hr, -, rfl⟩
    exact hin hr
  have htop : ∀ p, ¬ t.StoredChild p root.pid := by
    rintro p ⟨hp, r, hr, rfl, hpid⟩
    rw [List.inj_on_of_nodup_map hk hr hroot hpid] at hp
    exact hout hp
  obtain ⟨pids, hpids, hnd, hbelow⟩ := Descents.descend_total hpick
    (fun p q c hp hq => Tables.child_unique t hk hp.2 hq.2) hstored htop (hin hroot)
      ((List.toFinset_card_le _).trans hfuel)
  obtain ⟨hhead, hsteps, hlast⟩ := Descents.descent_of_descend hpids
  have hpath : ∀ p ∈ pids, p ∈ t.pids := by
    intro p hp
    rcases (hbelow p hp).cases_tail with rfl | ⟨q, -, -, r, hr, -, rfl⟩
    · exact List.mem_map_of_mem hroot
    · exact List.mem_map_of_mem hr
  have hrootRow : (rowsByPid t).getD root.pid {} = root := rowsByPid_of_mem hk hroot
  have hfirst : (pids.map fun p => (rowsByPid t).getD p {}).head? = some root := by
    rw [List.head?_map, hhead, Option.map_some, hrootRow]
  refine ⟨pids.map fun p => (rowsByPid t).getD p {}, by rw [criticalLoop_eq, hpids, Option.map_some], hfirst, ?_⟩
  refine ⟨fun r hr => ?_, ?_, ⟨root, hfirst, hout, hlongest⟩, ?_, fun r hr => ?_⟩
  · obtain ⟨p, hp, rfl⟩ := List.mem_map.mp hr
    exact (hrow p (hpath p hp)).1
  · rw [List.map_map]
    refine hnd.map_on fun p hp q hq heq => ?_
    simp only [Function.comp_apply, (hrow p (hpath p hp)).2, (hrow q (hpath q hq)).2] at heq
    exact heq
  · rw [List.isChain_map]
    refine hsteps.imp_of_mem_imp fun p c hp hc hpick => ?_
    obtain ⟨r, hr, rfl, hpp, hends⟩ := nextDown_spec hk hpick
    rw [rowsByPid_of_mem hk hr, (hrow p (hpath p hp)).2]
    exact ⟨hpp, hends⟩
  · rw [List.getLast?_map] at hr
    obtain ⟨p, hp, rfl⟩ := Option.map_eq_some_iff.mp hr
    rw [(hrow p (hpath p (List.mem_of_getLast? hp))).2]
    exact nextDown_none (hlast p hp)

private theorem criticalPath_cons {first : Int} {rest : List Int}
    (h : rootPids t.allProcesses = first :: rest) (fuel : Nat) :
    criticalPath fuel t = (criticalLoop (rowsByPid t) (childLists t) fuel
      (criticalRoot (rowsByPid t) first (first :: rest))).map
        (.found ((rowsByPid t).getD (criticalRoot (rowsByPid t) first (first :: rest)) {}).span) := by
  rw [criticalPath]
  split
  · rename_i hnone
    rw [hnone] at h
    cases h
  · rename_i hnone _
    rw [hnone] at h
    cases h
  · rename_i first' rest' hroots _
    rw [h] at hroots
    obtain ⟨rfl, rfl⟩ := List.cons.inj hroots
    rfl

/-- For every table, parent links in cycles included, the search ends: it reads beyond the roots exactly if there are
processes but no root, and otherwise finds a critical path. -/
theorem critical_path (t : Tables) (hk : t.pids.Nodup) {fuel : Nat} (hfuel : t.pids.length ≤ fuel) :
    (criticalPath fuel t = some .noProcesses ↔ t.processes = []) ∧
    (criticalPath fuel t = some .outOfBounds ↔ t.processes ≠ [] ∧ ∀ r ∈ t.processes, r.ppid ∈ t.pids) ∧
    ((∃ r ∈ t.processes, r.ppid ∉ t.pids) → ∃ root path, criticalPath fuel t = some (.found root.span path) ∧
      path.head? = some root ∧ t.IsCriticalPath path) := by
  have hempty : t.allProcesses = [] ↔ t.processes = [] := by
    simp only [List.eq_nil_iff_forall_not_mem, mem_allProcesses]
  have hroots : rootPids t.allProcesses = [] ↔ ∀ r ∈ t.processes, r.ppid ∈ t.pids := by
    simp only [List.eq_nil_iff_forall_not_mem, mem_rootPids, not_exists, not_and, not_not]
    exact ⟨fun h r hr => h r.pid r hr rfl, fun h p r hr _ => h r hr⟩
  cases hl : rootPids t.allProcesses with
  | nil =>
    have hall := hroots.mp hl
    have hnoroot : ¬ ∃ r ∈ t.processes, r.ppid ∉ t.pids := fun ⟨r, hr, hout⟩ => hout (hall r hr)
    by_cases hnone : t.processes = []
    · have hanswer : criticalPath fuel t = some .noProcesses := by
        rw [criticalPath, hempty.mpr hnone]
      simp [hanswer, hnone]
    · have hanswer : criticalPath fuel t = some .outOfBounds := by
        rw [criticalPath]
        split
        · rename_i hprocs
          exact absurd (hempty.mp hprocs) hnone
        · rfl
        · rename_i hcons _
          rw [hl] at hcons
          cases hcons
      rw [hanswer]
      exact ⟨iff_of_false (by simp) hnone, iff_of_true rfl ⟨hnone, hall⟩, fun h => absurd h hnoroot⟩
  | cons first rest =>
    obtain ⟨hmem, hlongest⟩ := @criticalRoot_spec t first rest
    have hanswer := criticalPath_cons hl fuel
    generalize criticalRoot (rowsByPid t) first (first :: rest) = top at hmem hlongest hanswer
    rw [← hl] at hmem hlongest
    obtain ⟨root, hroot, rfl, hout⟩ := (mem_rootPids top).mp hmem
    rw [rowsByPid_of_mem hk hroot] at hlongest hanswer
    have hlongest' : ∀ s ∈ t.processes, s.ppid ∉ t.pids → s.span ≤ root.span ∨ s.span ≤ 0 := by
      intro s hs hsout
      have hspan := hlongest s.pid ((mem_rootPids s.pid).mpr ⟨s, hs, rfl, hsout⟩)
      rwa [rowsByPid_of_mem hk hs] at hspan
    obtain ⟨path, hpath, hhead, hcritical⟩ := criticalLoop_path hk hroot hout hlongest' hfuel
    rw [hpath, Option.map_some] at hanswer
    rw [hanswer]
    refine ⟨iff_of_false (by simp) (List.ne_nil_of_mem hroot), iff_of_false (by simp) ?_, fun _ => ?_⟩
    · exact fun h => hout (h.2 root hroot)
    · exact ⟨root, path, rfl, hhead, hcritical⟩

end Proofs

/-- A build of two steps beside a stray cycle: the path goes through the step that ends last. -/
def buildBesideCycle : Tables :=
  { processes := [{ pid := 100, ppid := 1, startTimeUs := 10, endTimeUs := 90 },
      { pid := 101, ppid := 100, startTimeUs := 20, endTimeUs := 40 },
      { pid := 102, ppid := 100, startTimeUs := 30, endTimeUs := 80 },
      { pid := 7, ppid := 8, startTimeUs := 5, endTimeUs := 300 },
        { pid := 8, ppid := 7, startTimeUs := 6, endTimeUs := 400 }] }

theorem critical_path_buildBesideCycle : ∃ root path, criticalPath 5 buildBesideCycle = some (.found root.span path) ∧
    path.head? = some root ∧ buildBesideCycle.IsCriticalPath path :=
  (@critical_path buildBesideCycle (by decide) 5 (by decide)).2.2
    ⟨_, List.mem_cons_self, by decide⟩

end Bdtrace
