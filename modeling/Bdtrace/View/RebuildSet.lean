import Bdtrace.General.StoppableLoops
import Bdtrace.General.Worklist
import Bdtrace.View.CommandName
import Bdtrace.View.DependencyGraph

/-! The rebuild set that the viewers show: collapsed processes stand for what is below them, and
of the others only leaves with outputs are shown. -/
namespace Bdtrace
open Std (TreeMap TreeSet)
open Worklist StoppableLoops

structure RebuildResult where
  processes : List ProcessRecord := []
  totalAffected : Nat := 0
  collapsedChildren : TreeMap Int (List Int) := ∅

/-- Why a viewer's function does not return: a loop needs more steps than the fuel allows, or the
end of a map is dereferenced. -/
inductive Abort where
  | outOfFuel | missingProcess
  deriving DecidableEq, Repr

def loopDone {α : Type} : Option α → Except Abort α
  | none => .error .outOfFuel
  | some a => .ok a

namespace DependencyGraph
variable (g : DependencyGraph) (affected : TreeSet Int) (collapseNames : TreeSet Str)

def collapsedPids : List Int :=
  (g.procMap.toList.filter fun entry => collapseNames.contains (cmdName entry.2.cmdline)).map (·.1)

/-- The loop that hides the affected processes below a collapsed one. -/
def collapseLoop : Nat → List Int → List Int → Option (List Int)
  | _, [], hits => some hits
  | 0, _ :: _, _ => none
  | fuel + 1, p :: dq, hits =>
    collapseLoop fuel (dq ++ g.childrenOf p) (hits ++ (g.childrenOf p).filter affected.contains)

/-- The loop that looks for a hidden process below a collapsed one. -/
def affectedBelowLoop (hidden : List Int) : Nat → List Int → Option Bool
  | _, [] => some false
  | 0, _ :: _ => none
  | fuel + 1, p :: dq =>
    if (g.childrenOf p).any (· ∈ hidden) then some true
    else affectedBelowLoop hidden fuel (dq ++ g.childrenOf p)

/-- The affected parents with outputs of affected processes with outputs. -/
def hasOutputChild : List Int :=
  affected.toList.filterMap fun p =>
    if p ∈ g.pidToOutputs then (g.ppidOf p).filter fun q => q ∈ affected ∧ q ∈ g.pidToOutputs else none

/-- The processes that the leaf filter leaves: with outputs and without children with outputs. -/
def leafPids (collapsed hidden : List Int) : List Int :=
  affected.toList.filter fun p => p ∉ hidden ∧ p ∉ collapsed ∧ p ∈ g.pidToOutputs ∧ p ∉ g.hasOutputChild affected

/-- `g.proc_map.find(p)->second`. -/
def procAt (p : Int) : Except Abort ProcessRecord :=
  match g.procMap[p]? with
  | none => .error .missingProcess
  | some r => .ok r

end DependencyGraph

/-- The collapsed processes that are affected or have affected descendants, unless they are hidden. -/
def topPids (affected : TreeSet Int) (collapsed hidden : List Int) (flags : List Bool) : List Int :=
  (((collapsed.zip flags).filter fun e => e.2 || affected.contains e.1).map (·.1)).filter fun c => c ∉ hidden

def filterRebuildSet (fuel : Nat) (g : DependencyGraph) (affected : TreeSet Int) (collapseNames : TreeSet Str) :
    Except Abort RebuildResult := do
  let collapsed := g.collapsedPids collapseNames
  let kids ← collapsed.mapM fun c => loopDone (g.collapseLoop affected fuel [c] [])
  let flags ← collapsed.mapM fun c => loopDone (g.affectedBelowLoop kids.flatten fuel [c])
  let leaves ← (g.leafPids affected collapsed kids.flatten).mapM g.procAt
  let tops ← (topPids affected collapsed kids.flatten flags).mapM g.procAt
  return {
    processes := (leaves ++ tops).insertionSort fun a b => a.startTimeUs ≤ b.startTimeUs
    totalAffected := affected.size
    collapsedChildren := (collapsed.zip kids).foldl
      (fun m entry => if entry.2 = [] then m else m.insert entry.1 entry.2) ∅ }

/-! ### What the loops compute -/

namespace DependencyGraph
variable (g : DependencyGraph) (affected : TreeSet Int) (names : TreeSet Str)

/-- `p` is a proper descendant of `c` along `pid_children`. -/
def Below (c p : Int) : Prop := Relation.TransGen (fun a b => b ∈ g.childrenOf a) c p

def Collapsed (p : Int) : Prop := ∃ r, g.procMap[p]? = some r ∧ cmdName r.cmdline ∈ names

def Hidden (p : Int) : Prop := p ∈ affected ∧ ∃ c, g.Collapsed names c ∧ g.Below c p

/-- An affected process of which an affected child has outputs too. -/
def HasOutputChild (p : Int) : Prop :=
  p ∈ affected ∧ p ∈ g.pidToOutputs ∧ ∃ q ∈ affected, q ∈ g.pidToOutputs ∧ g.ppidOf q = some p

/-- No chain of `pid_children` and no chain of parents returns to its start, and the processes are
filed under their pids. -/
structure Forest : Prop where
  keys : ∀ (p : Int) (r : ProcessRecord), g.procMap[p]? = some r → r.pid = p
  down : ∀ p, ¬ g.Below p p
  up : ∀ p, ¬ Relation.TransGen (fun a b => g.ppidOf b = some a) p p

section
variable {g affected names}

theorem mem_collapsedPids (c : Int) : c ∈ g.collapsedPids names ↔ g.Collapsed names c := by
  simp only [collapsedPids, List.mem_map, List.mem_filter, Prod.exists, Collapsed]
  constructor
  · rintro ⟨p, r, ⟨hm, hn⟩, rfl⟩
    exact ⟨r, Std.TreeMap.mem_toList_iff_getElem?_eq_some.mp hm, Std.TreeSet.contains_iff_mem.mp hn⟩
  · rintro ⟨r, hm, hn⟩
    exact ⟨c, r, ⟨Std.TreeMap.mem_toList_iff_getElem?_eq_some.mpr hm, Std.TreeSet.contains_iff_mem.mpr hn⟩, rfl⟩

private theorem mem_hasOutputChild (p : Int) : p ∈ g.hasOutputChild affected ↔ g.HasOutputChild affected p := by
  simp only [hasOutputChild, List.mem_filterMap, Std.TreeSet.mem_toList, HasOutputChild]
  constructor
  · rintro ⟨q, hq, h⟩
    split at h
    · obtain ⟨hpp, hin⟩ := Option.filter_eq_some_iff.mp h
      obtain ⟨hp, hout⟩ := of_decide_eq_true hin
      exact ⟨hp, hout, q, hq, ‹_›, hpp⟩
    · cases h
  · rintro ⟨hp, hout, q, hq, hqout, hpp⟩
    refine ⟨q, hq, ?_⟩
    rw [if_pos hqout]
    exact Option.filter_eq_some_iff.mpr ⟨hpp, decide_eq_true ⟨hp, hout⟩⟩

theorem collapseLoop_eq (fuel : Nat) (dq hits : List Int) : g.collapseLoop affected fuel dq hits =
    (walk g.childrenOf fuel dq).map fun l => hits ++ (l.flatMap g.childrenOf).filter affected.contains := by
  induction fuel generalizing dq hits with
  | zero => cases dq <;> simp [collapseLoop, walk]
  | succ fuel ih =>
    cases dq with
    | nil => simp [collapseLoop, walk]
    | cons p dq =>
      rw [collapseLoop, ih, walk, Option.map_map]
      congr 1
      funext l
      simp

theorem affectedBelowLoop_eq {hidden : List Int} {fuel : Nat} {dq l : List Int}
    (h : walk g.childrenOf fuel dq = some l) :
    g.affectedBelowLoop hidden fuel dq = some (l.any fun p => (g.childrenOf p).any (· ∈ hidden)) := by
  induction fuel generalizing dq l with
  | zero =>
    cases dq with
    | nil =>
      obtain rfl := Option.some.inj h
      rfl
    | cons p dq => cases h
  | succ fuel ih =>
    cases dq with
    | nil =>
      obtain rfl := Option.some.inj h
      rfl
    | cons p dq =>
      rw [walk, Option.map_eq_some_iff] at h
      obtain ⟨l', hl', rfl⟩ := h
      rw [affectedBelowLoop, ih hl', List.any_cons]
      cases (g.childrenOf p).any (· ∈ hidden) <;> rfl

private theorem below_iff (c x : Int) : g.Below c x ↔ ∃ p, Reaches g.childrenOf c p ∧ x ∈ g.childrenOf p :=
  Relation.TransGen.tail'_iff

/-- The affected processes below `c` in the order in which the loop meets them. -/
private def metBelow (g : DependencyGraph) (affected : TreeSet Int) (fuel : Nat) (c : Int) : List Int :=
  (((walk g.childrenOf fuel [c]).getD []).flatMap g.childrenOf).filter affected.contains

private theorem mem_metBelow {fuel : Nat} {c : Int} {l : List Int} (h : walk g.childrenOf fuel [c] = some l) (x : Int) :
    x ∈ metBelow g affected fuel c ↔ x ∈ affected ∧ g.Below c x := by
  rw [metBelow, h, Option.getD_some, List.mem_filter, List.mem_flatMap, Std.TreeSet.contains_iff_mem, below_iff,
    and_comm]
  simp only [mem_walk h, List.mem_singleton, exists_eq_left]

private theorem flag_iff {fuel : Nat} {c : Int} {l hidden : List Int} (h : walk g.childrenOf fuel [c] = some l) :
    (l.any fun p => (g.childrenOf p).any (· ∈ hidden)) = true ↔ ∃ x ∈ hidden, g.Below c x := by
  simp only [List.any_eq_true, mem_walk h, List.mem_singleton, exists_eq_left, decide_eq_true_eq, below_iff]
  constructor
  · rintro ⟨p, hp, x, hx, hm⟩
    exact ⟨x, hm, p, hp, hx⟩
  · rintro ⟨x, hm, p, hp, hx⟩
    exact ⟨p, hp, x, hx, hm⟩

theorem procAt_ok {p : Int} (h : p ∈ g.procMap) : g.procAt p = .ok (g.procMap[p]?.getD {}) := by
  obtain ⟨r, hr⟩ := Std.TreeMap.mem_iff_isSome_getElem?.mp h |> Option.isSome_iff_exists.mp
  simp only [procAt, hr, Option.getD_some]

private theorem foldl_getD (v : Int → List Int) (l : List Int) (m : TreeMap Int (List Int)) (c : Int) :
    (l.foldl (fun m c => if v c = [] then m else m.insert c (v c)) m).getD c [] =
      if c ∈ l ∧ v c ≠ [] then v c else m.getD c [] := by
  induction l generalizing m with
  | nil => simp
  | cons a l ih =>
    rw [List.foldl_cons, ih]
    by_cases ha : c = a
    · subst ha
      by_cases hv : v c = []
      · simp [hv]
      · simp [hv]
    · have hne : compare a c ≠ .eq := by simpa using Ne.symm ha
      by_cases hv : v a = [] <;> simp [hv, ha, Std.TreeMap.getD_insert, hne]

/-- What ends up in the list: a leaf with outputs, or a collapsed process that stands for something. -/
def Shown (g : DependencyGraph) (affected : TreeSet Int) (names : TreeSet Str) (p : Int) : Prop :=
  ¬ g.Hidden affected names p ∧
    ((p ∈ affected ∧ ¬ g.Collapsed names p ∧ p ∈ g.pidToOutputs ∧ ¬ g.HasOutputChild affected p) ∨
      (g.Collapsed names p ∧ (p ∈ affected ∨ ∃ x ∈ affected, g.Below p x)))

theorem wellFounded_childrenOf (h : ∀ p, ¬ g.Below p p) : WellFounded (Child g.childrenOf) := by
  refine wellFounded_of_acyclic g.pidChildren.keys.toFinset (fun a b hb => ?_) h
  rw [List.mem_toFinset, Std.TreeMap.mem_keys]
  by_contra hm
  have hnil : g.childrenOf a = [] := Std.TreeMap.getD_eq_fallback hm
  rw [Child, hnil] at hb
  cases hb

theorem Forest.wellFounded (h : g.Forest) : WellFounded (Child g.childrenOf) := wellFounded_childrenOf h.down

/-- Once the loops have returned, the shown processes are looked up. -/
theorem filterRebuildSet_loops (fuel : Nat) (kids : Int → List Int) (flag : Int → Bool)
    (hkids : ∀ c ∈ g.collapsedPids names, g.collapseLoop affected fuel [c] [] = some (kids c))
    (hflags : ∀ c ∈ g.collapsedPids names,
      g.affectedBelowLoop ((g.collapsedPids names).map kids).flatten fuel [c] = some (flag c)) :
    filterRebuildSet fuel g affected names = do
      let leaves ← (g.leafPids affected (g.collapsedPids names) ((g.collapsedPids names).map kids).flatten).mapM
        g.procAt
      let tops ← (topPids affected (g.collapsedPids names) ((g.collapsedPids names).map kids).flatten
        ((g.collapsedPids names).map flag)).mapM g.procAt
      return {
        processes := (leaves ++ tops).insertionSort fun a b => a.startTimeUs ≤ b.startTimeUs
        totalAffected := affected.size
        collapsedChildren := (g.collapsedPids names).foldl
          (fun m c => if kids c = [] then m else m.insert c (kids c)) ∅ } := by
  have h1 : (g.collapsedPids names).mapM (fun c => loopDone (g.collapseLoop affected fuel [c] [])) =
      .ok ((g.collapsedPids names).map kids) := by
    apply mapM_ok
    intro c hc
    rw [hkids c hc]
    rfl
  have h2 : (g.collapsedPids names).mapM (fun c =>
      loopDone (g.affectedBelowLoop ((g.collapsedPids names).map kids).flatten fuel [c])) =
      .ok ((g.collapsedPids names).map flag) := by
    apply mapM_ok
    intro c hc
    rw [hflags c hc]
    rfl
  simp only [filterRebuildSet, h1, bind, Except.bind, h2, ← List.map_prod_left_eq_zip, List.foldl_map]

private theorem mem_topPids {collapsed hidden : List Int} {flag : Int → Bool} (p : Int) :
    p ∈ topPids affected collapsed hidden (collapsed.map flag) ↔
      p ∉ hidden ∧ p ∈ collapsed ∧ (p ∈ affected ∨ flag p = true) := by
  simp only [topPids, ← List.map_prod_left_eq_zip, List.mem_filter, List.mem_map, Bool.or_eq_true,
    Std.TreeSet.contains_iff_mem, decide_eq_true_eq]
  constructor
  · rintro ⟨⟨e, ⟨⟨c, hc, rfl⟩, hf⟩, rfl⟩, hh⟩
    exact ⟨hh, hc, hf.symm⟩
  · rintro ⟨hh, hc, hf⟩
    exact ⟨⟨_, ⟨⟨p, hc, rfl⟩, hf.symm⟩, rfl⟩, hh⟩

theorem mem_leaves_tops {hidden : List Int} {flag : Int → Bool}
    (hhidden : ∀ x, x ∈ hidden ↔ g.Hidden affected names x)
    (hflag : ∀ c ∈ g.collapsedPids names, flag c = true ↔ ∃ x ∈ affected, g.Below c x) (p : Int) :
    p ∈ g.leafPids affected (g.collapsedPids names) hidden ++
        topPids affected (g.collapsedPids names) hidden ((g.collapsedPids names).map flag) ↔
      g.Shown affected names p := by
  rw [List.mem_append, mem_topPids, hhidden, Shown, ← mem_collapsedPids]
  simp only [leafPids, List.mem_filter, Std.TreeSet.mem_toList, decide_eq_true_eq, hhidden, mem_hasOutputChild]
  constructor
  · rintro (⟨hp, hh, hc, ho, hl⟩ | ⟨hh, hc, hf⟩)
    · exact ⟨hh, .inl ⟨hp, hc, ho, hl⟩⟩
    · exact ⟨hh, .inr ⟨hc, hf.imp_right (hflag p hc).mp⟩⟩
  · rintro ⟨hh, ⟨hp, hc, ho, hl⟩ | ⟨hc, hf⟩⟩
    · exact .inl ⟨hp, hh, hc, ho, hl⟩
    · exact .inr ⟨hh, hc, hf.imp_right (hflag p hc).mpr⟩

/-- Rows whose parents have a smaller rank give a forest. -/
theorem forest_built {t : Tables} (hk : t.pids.Nodup) (rank : Int → Nat)
    (h : ∀ r ∈ t.processes, rank r.ppid < rank r.pid) : (buildDependencyGraph t).Forest := by
  refine ⟨fun p r hr => ((getElem?_procMap hk p r).mp hr).2, Worklist.acyclic_of_rank rank fun a b hb => ?_,
    Worklist.acyclic_of_rank rank fun a b hb => ?_⟩
  · obtain ⟨r, hr, rfl, rfl⟩ := (mem_childrenOf t a b).mp hb
    exact h r hr
  · obtain ⟨r, hr, rfl⟩ := Option.map_eq_some_iff.mp hb
    obtain ⟨hmem, rfl⟩ := (getElem?_procMap hk b r).mp hr
    exact h r hmem

/-- What the two loops find when their walks end. -/
theorem loops_spec {fuel : Nat} (hwalk : ∀ c ∈ g.collapsedPids names, ∃ l, walk g.childrenOf fuel [c] = some l) :
    ∃ (kids : Int → List Int) (flag : Int → Bool),
      (∀ c ∈ g.collapsedPids names, g.collapseLoop affected fuel [c] [] = some (kids c)) ∧
      (∀ c ∈ g.collapsedPids names,
        g.affectedBelowLoop ((g.collapsedPids names).map kids).flatten fuel [c] = some (flag c)) ∧
      (∀ c ∈ g.collapsedPids names, ∀ x, x ∈ kids c ↔ x ∈ affected ∧ g.Below c x) ∧
      (∀ x, x ∈ ((g.collapsedPids names).map kids).flatten ↔ g.Hidden affected names x) ∧
      ∀ c ∈ g.collapsedPids names, flag c = true ↔ ∃ x ∈ affected, g.Below c x := by
  have hmem : ∀ c ∈ g.collapsedPids names, ∀ x, x ∈ metBelow g affected fuel c ↔ x ∈ affected ∧ g.Below c x :=
    fun c hc x => by
      obtain ⟨l, hl⟩ := hwalk c hc
      exact mem_metBelow hl x
  have hhidden : ∀ x, x ∈ ((g.collapsedPids names).map (metBelow g affected fuel)).flatten ↔
      g.Hidden affected names x := fun x => by
    simp only [List.mem_flatten, List.mem_map, Hidden, ← mem_collapsedPids]
    constructor
    · rintro ⟨_, ⟨c, hc, rfl⟩, hx⟩
      exact ⟨((hmem c hc x).mp hx).1, c, hc, ((hmem c hc x).mp hx).2⟩
    · rintro ⟨hx, c, hc, hb⟩
      exact ⟨_, ⟨c, hc, rfl⟩, (hmem c hc x).mpr ⟨hx, hb⟩⟩
  let hidden := ((g.collapsedPids names).map (metBelow g affected fuel)).flatten
  have hflag : ∀ c ∈ g.collapsedPids names, ∃ b, g.affectedBelowLoop hidden fuel [c] = some b ∧
      (b = true ↔ ∃ x ∈ affected, g.Below c x) := fun c hc => by
    obtain ⟨l, hl⟩ := hwalk c hc
    refine ⟨_, affectedBelowLoop_eq hl, (flag_iff hl).trans ?_⟩
    simp only [hidden, hhidden]
    constructor
    · rintro ⟨x, ⟨hx, -⟩, hb⟩
      exact ⟨x, hx, hb⟩
    · rintro ⟨x, hx, hb⟩
      exact ⟨x, ⟨hx, c, (mem_collapsedPids c).mp hc, hb⟩, hb⟩
  refine ⟨metBelow g affected fuel, fun c => (g.affectedBelowLoop hidden fuel [c]).getD false, fun c hc => ?_,
    fun c hc => ?_, hmem, hhidden, fun c hc => ?_⟩
  · obtain ⟨l, hl⟩ := hwalk c hc
    simp only [collapseLoop_eq, hl, Option.map_some, List.nil_append, metBelow, Option.getD_some]
  · obtain ⟨b, hb, -⟩ := hflag c hc
    simp only [hb, Option.getD_some]
    exact hb
  · obtain ⟨b, hb, hiff⟩ := hflag c hc
    simp only [hb, Option.getD_some, hiff]

private theorem nodup_collapsedPids : (g.collapsedPids names).Nodup := by
  have hkeys : (g.procMap.toList.map (·.1)).Nodup := by
    rw [Std.TreeMap.map_fst_toList_eq_keys]
    exact Std.TreeMap.nodup_keys
  exact hkeys.sublist (List.filter_sublist.map _)

private theorem nodup_leaves_tops (hidden : List Int) (flag : Int → Bool) :
    (g.leafPids affected (g.collapsedPids names) hidden ++
      topPids affected (g.collapsedPids names) hidden ((g.collapsedPids names).map flag)).Nodup := by
  refine List.nodup_append.mpr ⟨?_, ?_, ?_⟩
  · exact (nodup_toList affected).filter _
  · have hzip : ((g.collapsedPids names).zip ((g.collapsedPids names).map flag)).map (·.1) = g.collapsedPids names :=
      List.map_fst_zip (by rw [List.length_map])
    have hall : (((g.collapsedPids names).zip ((g.collapsedPids names).map flag)).map (·.1)).Nodup :=
      hzip.symm ▸ nodup_collapsedPids
    exact (hall.sublist (List.filter_sublist.map _)).filter _
  · rintro p hp _ htop rfl
    have hleaf := (List.mem_filter.mp hp).2
    rw [decide_eq_true_eq] at hleaf
    exact hleaf.2.1 ((mem_topPids p).mp htop).2.1

/-- With enough fuel the function returns, and the shown processes, once each, and the lists of hidden
ones are these. -/
theorem filterRebuildSet_spec (hkeys : ∀ (p : Int) (r : ProcessRecord), g.procMap[p]? = some r → r.pid = p)
    (hwf : WellFounded (Child g.childrenOf)) (haff : ∀ p ∈ affected, p ∈ g.procMap) (names : TreeSet Str) :
    ∃ n, ∀ fuel, n ≤ fuel → ∃ res, filterRebuildSet fuel g affected names = .ok res ∧
      (res.processes.map (·.pid)).Nodup ∧
      (∀ p, p ∈ res.processes.map (·.pid) ↔ g.Shown affected names p) ∧
      ∀ c x, x ∈ res.collapsedChildren.getD c [] ↔ g.Collapsed names c ∧ x ∈ affected ∧ g.Below c x := by
  refine ⟨((g.collapsedPids names).map (weight hwf)).sum, fun fuel hfuel => ?_⟩
  have hwalk : ∀ c ∈ g.collapsedPids names, ∃ l, walk g.childrenOf fuel [c] = some l := fun c hc => by
    apply walk_total hwf
    rw [List.map_singleton, List.sum_singleton]
    exact (List.le_sum_of_mem (List.mem_map_of_mem hc)).trans hfuel
  obtain ⟨kids, flag, hkids, hflags, hmem, hhidden, hflag⟩ := @loops_spec g affected names fuel hwalk
  have hknown : ∀ p, g.Shown affected names p → p ∈ g.procMap := by
    rintro p ⟨-, ⟨hp, -⟩ | ⟨⟨r, hr, -⟩, -⟩⟩
    · exact haff p hp
    · exact Std.TreeMap.mem_iff_isSome_getElem?.mpr (by rw [hr]; rfl)
  have hshown := @mem_leaves_tops g affected names _ flag hhidden hflag
  have hpid : ∀ p, g.Shown affected names p → (g.procMap[p]?.getD {}).pid = p := fun p hp => by
    obtain ⟨r, hr⟩ := Option.isSome_iff_exists.mp (Std.TreeMap.mem_iff_isSome_getElem?.mp (hknown p hp))
    rw [hr, Option.getD_some, hkeys p r hr]
  have hleaves := mapM_ok fun p hp => procAt_ok (hknown p ((hshown p).mp (List.mem_append_left _ hp)))
  have htops := mapM_ok fun p hp => procAt_ok (hknown p ((hshown p).mp (List.mem_append_right _ hp)))
  have hok := filterRebuildSet_loops fuel kids flag hkids hflags
  simp only [hleaves, htops, bind, Except.bind, ← List.map_append] at hok
  refine ⟨_, hok, ?_, fun p => ?_, fun c x => ?_⟩
  · have hperm :=
      ((List.perm_insertionSort (fun a b : ProcessRecord => a.startTimeUs ≤ b.startTimeUs) ((g.leafPids affected
      (g.collapsedPids names) ((g.collapsedPids names).map kids).flatten ++ topPids affected (g.collapsedPids names)
        ((g.collapsedPids names).map kids).flatten ((g.collapsedPids names).map flag)).map
          fun p => g.procMap[p]?.getD {})).map (·.pid)).nodup_iff
    rw [hperm, List.map_map]
    refine List.Nodup.map_on (fun p hp q hq heq => ?_) (nodup_leaves_tops _ flag)
    have heq : (g.procMap[p]?.getD {}).pid = (g.procMap[q]?.getD {}).pid := heq
    rwa [hpid p ((hshown p).mp hp), hpid q ((hshown q).mp hq)] at heq
  · simp only [List.mem_map, List.mem_insertionSort, hshown]
    constructor
    · rintro ⟨r, ⟨q, hq, rfl⟩, rfl⟩
      rwa [hpid q hq]
    · exact fun hp => ⟨_, ⟨p, hp, rfl⟩, hpid p hp⟩
  · simp only [foldl_getD, Std.TreeMap.getD_emptyc]
    by_cases hc : c ∈ g.collapsedPids names
    · by_cases hnil : kids c = []
      · have hno : ∀ x, ¬ (x ∈ affected ∧ g.Below c x) := fun x hx => by
          have := (hmem c hc x).mpr hx
          rw [hnil] at this
          cases this
        simp [hnil, hno x]
      · rw [if_pos ⟨hc, hnil⟩, hmem c hc]
        exact ⟨fun h => ⟨(mem_collapsedPids c).mp hc, h⟩, And.right⟩
    · simp [hc, ← mem_collapsedPids]

/-! ### What the shown processes stand for -/

/-- `p` is shown, or in the list of a shown process. -/
def Represented (res : RebuildResult) (p : Int) : Prop :=
  p ∈ res.processes.map (·.pid) ∨ ∃ c ∈ res.processes.map (·.pid), p ∈ res.collapsedChildren.getD c []

/-- Left out because an affected child has outputs: the process is neither collapsed nor below a
collapsed one. -/
def LeafFiltered (g : DependencyGraph) (affected : TreeSet Int) (names : TreeSet Str) (p : Int) : Prop :=
  ¬ g.Collapsed names p ∧ (∀ c, g.Collapsed names c → ¬ g.Below c p) ∧ g.HasOutputChild affected p

/-- Above a process below collapsed ones there is one that is below no other. -/
theorem topmost (hwf : WellFounded (Child g.childrenOf)) {c p : Int} (hc : g.Collapsed names c) (hb : g.Below c p) :
    ∃ t, g.Collapsed names t ∧ g.Below t p ∧ ∀ c, g.Collapsed names c → ¬ g.Below c t := by
  classical
  let above := (g.collapsedPids names).toFinset.filter fun c => g.Below c p
  have hmem : ∀ t, t ∈ above ↔ g.Collapsed names t ∧ g.Below t p := fun t => by
    rw [Finset.mem_filter, List.mem_toFinset, mem_collapsedPids]
  obtain ⟨t, ht, hmax⟩ := above.exists_max_image (weight hwf) ⟨c, (hmem c).mpr ⟨hc, hb⟩⟩
  obtain ⟨htc, htp⟩ := (hmem t).mp ht
  refine ⟨t, htc, htp, fun d hd hdt => ?_⟩
  have hle := hmax d ((hmem d).mpr ⟨hd, hdt.trans htp⟩)
  have hlt := weight_lt hwf hdt
  omega

/-- An affected process with outputs is represented unless it is leaf-filtered. -/
private theorem represented (hg : g.Forest) {res : RebuildResult}
    (hshown : ∀ p, p ∈ res.processes.map (·.pid) ↔ g.Shown affected names p)
    (hkids : ∀ c x, x ∈ res.collapsedChildren.getD c [] ↔ g.Collapsed names c ∧ x ∈ affected ∧ g.Below c x)
    {p : Int} (hp : p ∈ affected) (ho : p ∈ g.pidToOutputs) (hleaf : ¬ g.LeafFiltered affected names p) :
    Represented res p := by
  by_cases hbelow : ∃ c, g.Collapsed names c ∧ g.Below c p
  · obtain ⟨c, hc, hb⟩ := hbelow
    obtain ⟨t, htc, htp, htop⟩ := topmost hg.wellFounded hc hb
    right
    refine ⟨t, (hshown t).mpr ⟨?_, .inr ⟨htc, .inr ⟨p, hp, htp⟩⟩⟩, (hkids t p).mpr ⟨htc, hp, htp⟩⟩
    rintro ⟨-, d, hd, hdt⟩
    exact htop d hd hdt
  · left
    have hnot : ¬ g.Hidden affected names p := fun h => hbelow h.2
    apply (hshown p).mpr
    by_cases hc : g.Collapsed names p
    · exact ⟨hnot, .inr ⟨hc, .inl hp⟩⟩
    · refine ⟨hnot, .inl ⟨hp, hc, ho, fun hchild => hleaf ⟨hc, ?_, hchild⟩⟩⟩
      exact fun c hcol hb => hbelow ⟨c, hcol, hb⟩

private theorem wellFounded_up (hg : g.Forest) : WellFounded fun b a => g.ppidOf b = some a := by
  refine wellFounded_of_acyclic (g.procMap.toList.map (·.2.ppid)).toFinset (fun a b hab => ?_) hg.up
  obtain ⟨r, hr, rfl⟩ := Option.map_eq_some_iff.mp hab
  rw [List.mem_toFinset, List.mem_map]
  exact ⟨(b, r), Std.TreeMap.mem_toList_iff_getElem?_eq_some.mpr hr, rfl⟩

end
end DependencyGraph

open DependencyGraph

private theorem mem_pidToOutputs {g : DependencyGraph} {p : Int} {f : Str} (h : f ∈ g.outputsOf p) :
    p ∈ g.pidToOutputs := by
  by_contra hm
  have hnil : g.outputsOf p = ∅ := Std.TreeMap.getD_eq_fallback hm
  rw [hnil] at h
  exact Std.TreeSet.not_mem_emptyc h

/-- Coverage of the rebuild set. On a forest the function returns, and a file that an affected process
outputs is an output of a represented process, unless the leaf filter drops the affected process in
favour of an affected descendant with outputs, which is represented. -/
theorem filterRebuildSet_covers (g : DependencyGraph) (hg : g.Forest) (affected : TreeSet Int)
    (haff : ∀ p ∈ affected, p ∈ g.procMap) (names : TreeSet Str) :
    ∃ n, ∀ fuel, n ≤ fuel → ∃ res, filterRebuildSet fuel g affected names = .ok res ∧
      ∀ p ∈ affected, ∀ f ∈ g.outputsOf p,
        (∃ q, Represented res q ∧ f ∈ g.outputsOf q) ∨
        (g.LeafFiltered affected names p ∧ ∃ q ∈ affected, q ∈ g.pidToOutputs ∧ Represented res q ∧
          Relation.TransGen (fun a b => g.ppidOf b = some a) p q) := by
  obtain ⟨n, hn⟩ := filterRebuildSet_spec hg.keys hg.wellFounded haff names
  refine ⟨n, fun fuel hfuel => ?_⟩
  obtain ⟨res, hres, -, hshown, hkids⟩ := hn fuel hfuel
  have hleaf : ∀ p, g.LeafFiltered affected names p → ∃ q ∈ affected, q ∈ g.pidToOutputs ∧ Represented res q ∧
      Relation.TransGen (fun a b => g.ppidOf b = some a) p q := fun p => by
    induction p using (wellFounded_up hg).induction with
    | _ p ih =>
      rintro ⟨-, -, -, -, q, hq, hqo, hpp⟩
      by_cases hleaf : g.LeafFiltered affected names q
      · obtain ⟨r, hr, hro, hrep, hbelow⟩ := ih q hpp hleaf
        exact ⟨r, hr, hro, hrep, .head hpp hbelow⟩
      · exact ⟨q, hq, hqo, represented hg hshown hkids hq hqo hleaf, .single hpp⟩
  refine ⟨res, hres, fun p hp f hf => ?_⟩
  by_cases h : g.LeafFiltered affected names p
  · exact .inr ⟨h, hleaf p h⟩
  · exact .inl ⟨p, represented hg hshown hkids hp (mem_pidToOutputs hf) h, hf⟩

/-- A driver with the output `a` whose child outputs `b`. -/
private def driverTables : Tables :=
  { processes := [{ pid := 1, ppid := 0, cmdline := "make".toList }, { pid := 2, ppid := 1, cmdline := "cc".toList }]
    files := [⟨1, "a".toList⟩, ⟨2, "b".toList⟩]
    fileAccesses := [⟨1, 1, 1, 1, 3, 0⟩, ⟨2, 2, 2, 1, 3, 0⟩] }

private def bothAffected : TreeSet Int := (∅ : TreeSet Int).insert 1 |>.insert 2

/-- Both are affected, only the child is shown, and no represented process outputs `a`. -/
theorem driver_output_not_covered : (buildDependencyGraph driverTables).Forest ∧
    ∃ res, filterRebuildSet 9 (buildDependencyGraph driverTables) bothAffected ∅ = .ok res ∧
      "a".toList ∈ (buildDependencyGraph driverTables).outputsOf 1 ∧
      ∀ q, Represented res q → "a".toList ∉ (buildDependencyGraph driverTables).outputsOf q := by
  have hrun : (filterRebuildSet 9 (buildDependencyGraph driverTables) bothAffected ∅).toOption.map
      (fun res => (res.processes.map (·.pid), res.collapsedChildren.getD 2 [])) = some ([2], []) := by decide
  obtain ⟨res, hres, hval⟩ := Option.map_eq_some_iff.mp hrun
  obtain ⟨hprocs, hkids⟩ := Prod.mk.inj hval
  refine ⟨forest_built (by decide) Int.toNat (by decide), res, ?_, by decide, fun q hq => ?_⟩
  · cases hf : filterRebuildSet 9 (buildDependencyGraph driverTables) bothAffected ∅ with
    | error e => simp [hf, Except.toOption] at hres
    | ok r => simpa [hf, Except.toOption] using hres
  · have hq2 : q = 2 := by
      rw [Represented, hprocs] at hq
      simpa [hkids] using hq
    rw [hq2]
    decide

private theorem mem_bothAffected {p : Int} (h : p ∈ bothAffected) : p = 1 ∨ p = 2 := by
  simp only [bothAffected, Std.TreeSet.mem_insert, compare_eq_iff_eq, Std.TreeSet.not_mem_emptyc, or_false] at h
  omega

/-- The child is not leaf-filtered, so its output is covered. -/
theorem child_output_covered : ∃ n, ∀ fuel, n ≤ fuel → ∃ res,
    filterRebuildSet fuel (buildDependencyGraph driverTables) bothAffected ∅ = .ok res ∧
      ∃ q, Represented res q ∧ "b".toList ∈ (buildDependencyGraph driverTables).outputsOf q := by
  have hknown : ∀ p ∈ bothAffected, p ∈ (buildDependencyGraph driverTables).procMap := fun p hp => by
    rcases mem_bothAffected hp with rfl | rfl <;> decide
  obtain ⟨n, hn⟩ := filterRebuildSet_covers (buildDependencyGraph driverTables)
    (forest_built (by decide) Int.toNat (by decide)) bothAffected hknown ∅
  refine ⟨n, fun fuel hfuel => ?_⟩
  obtain ⟨res, hres, hcover⟩ := hn fuel hfuel
  refine ⟨res, hres, (hcover 2 (by decide) "b".toList (by decide)).resolve_right ?_⟩
  rintro ⟨⟨-, -, -, -, q, hq, -, hpp⟩, -⟩
  rcases mem_bothAffected hq with rfl | rfl
  · exact absurd hpp (by decide)
  · exact absurd hpp (by decide)

end Bdtrace
