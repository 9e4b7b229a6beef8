import Bdtrace.General.Outlines
import Bdtrace.View.AncestorChains
import Bdtrace.Web.CriticalPath

/-! The process tree that `bdview tree` prints: what it shows, and that the bars before a line tell its parent. -/
namespace Bdtrace
open Std (TreeMap)
open Worklist (Child Reaches)
open Tours (subtree mem_subtree)
open Outlines (outline parentOf)

/-- A line before its text: the bars, and whether the process is the last of its siblings. -/
structure TreeLine where
  lead : Str
  last : Bool
  row : ProcessRecord
  deriving DecidableEq, Repr

section Source
variable (t : Tables)

def printTree : Nat → Str → Bool → Int → Option (List TreeLine)
  | 0, _, _, _ => none
  | fuel + 1, lead, last, pid =>
    match t.getProcess pid with
    | none => some []
    | some rec =>
      let children := t.children pid
      let newLead := lead ++ if last then "    ".toList else "|   ".toList
      (children.zipIdx.mapM fun c => printTree fuel newLead (c.2 + 1 == children.length) c.1.pid).map fun below =>
        ⟨lead, last, rec⟩ :: below.flatten

def cmdTree (fuel : Nat) : Option (List TreeLine) :=
  let roots := rootPids t.allProcesses
  (roots.zipIdx.mapM fun r => printTree t fuel [] (r.2 + 1 == roots.length) r.1).map List.flatten

end Source

/-! ### Below the roots -/

namespace Tables
variable {t : Tables}

/-- Below a row whose parent has none. -/
def Rooted (t : Tables) (p : Int) : Prop :=
  ∃ root ∈ t.processes, root.ppid ∉ t.pids ∧ Relation.ReflTransGen t.Child root.pid p

theorem Rooted.mem_pids {p : Int} (h : t.Rooted p) : p ∈ t.pids := by
  obtain ⟨root, hroot, -, hreach⟩ := h
  rcases hreach.cases_tail with rfl | ⟨q, -, r, hr, -, rfl⟩
  · exact List.mem_map_of_mem hroot
  · exact List.mem_map_of_mem hr

/-- The cycles of the parent links are not below a root. -/
theorem Rooted.acyclic (hk : t.pids.Nodup) {p : Int} (h : t.Rooted p) : ¬ Relation.TransGen t.Child p p := by
  intro hcycle
  obtain ⟨root, hroot, hout, hreach⟩ := h
  have habove := @Descents.cycle_above Int t.Child (fun _ _ _ => child_unique t hk) root.pid p hreach hcycle
  obtain ⟨q, hq, hchild⟩ := Relation.TransGen.tail'_iff.mp habove
  obtain rfl := child_unique t hk hchild ⟨root, hroot, rfl, rfl⟩
  exact hout (Rooted.mem_pids ⟨root, hroot, hout, hq⟩)

theorem Rooted.tail {p c : Int} (h : t.Rooted p) (hc : t.Child p c) : t.Rooted c := by
  obtain ⟨root, hroot, hout, hreach⟩ := h
  exact ⟨root, hroot, hout, hreach.tail hc⟩

end Tables

section Proofs
variable {t : Tables}

private def childPidsOf (t : Tables) (p : Int) : List Int := (t.children p).map (·.pid)

private theorem mem_childPidsOf (p c : Int) : c ∈ childPidsOf t p ↔ t.Child p c := by
  simp only [childPidsOf, Tables.children, List.mem_map, List.mem_filter, mem_allProcesses, decide_eq_true_eq]
  constructor
  · rintro ⟨r, ⟨hr, hppid⟩, hpid⟩
    exact ⟨r, hr, hppid, hpid⟩
  · rintro ⟨r, hr, hppid, hpid⟩
    exact ⟨r, ⟨hr, hppid⟩, hpid⟩

open Classical in
/-- The children as far as they are below the roots. -/
private noncomputable def rootedChildren (t : Tables) (p : Int) : List Int := if t.Rooted p then childPidsOf t p else []

private theorem mem_rootedChildren (p c : Int) : c ∈ rootedChildren t p ↔ t.Rooted p ∧ t.Child p c := by
  rw [rootedChildren]
  split
  · rename_i h
    rw [mem_childPidsOf]
    exact ⟨fun hc => ⟨h, hc⟩, And.right⟩
  · rename_i h
    exact iff_of_false List.not_mem_nil fun hc => h hc.1

private theorem isForest_rooted (hk : t.pids.Nodup) : Tours.IsForest (rootedChildren t) := by
  refine ⟨?_, fun p => ?_, fun p q c hp hq => ?_⟩
  · apply Worklist.wellFounded_of_acyclic t.pids.toFinset
    · exact fun p c hc => List.mem_toFinset.mpr ((mem_rootedChildren p c).mp hc).1.mem_pids
    · intro p hcycle
      obtain ⟨c, hc, -⟩ := Relation.TransGen.head'_iff.mp hcycle
      refine ((mem_rootedChildren p c).mp hc).1.acyclic hk ?_
      exact hcycle.lift id fun a b hab => ((mem_rootedChildren a b).mp hab).2
  · rw [rootedChildren]
    split
    · exact ((allProcesses_nodup hk).sublist (List.filter_sublist.map _))
    · exact List.nodup_nil
  · exact Tables.child_unique t hk ((mem_rootedChildren p c).mp hp).2 ((mem_rootedChildren q c).mp hq).2

private theorem reaches_rooted {p : Int} (h : t.Rooted p) (x : Int) :
    Reaches (rootedChildren t) p x ↔ Relation.ReflTransGen t.Child p x := by
  constructor
  · intro hreach
    exact hreach.lift id fun a b hab => ((mem_rootedChildren a b).mp hab).2
  · intro hreach
    have hboth : Reaches (rootedChildren t) p x ∧ t.Rooted x := by
      induction hreach with
      | refl => exact ⟨.refl, h⟩
      | tail _ hbc ih => exact ⟨ih.1.tail ((mem_rootedChildren _ _).mpr ⟨ih.2, hbc⟩), ih.2.tail hbc⟩
    exact hboth.1

private theorem depth_rooted (hk : t.pids.Nodup) {p c : Int} (hc : c ∈ rootedChildren t p) :
    t.depth c = t.depth p + 1 := by
  obtain ⟨hp, r, hr, rfl, rfl⟩ := (mem_rootedChildren p c).mp hc
  have hself : r.ppid ∉ t.ancestors r.ppid := fun h => hp.acyclic hk h.2
  rw [Tables.depth, ancestors_eq hk hr, if_pos hp.mem_pids,
    Set.ncard_insert_of_notMem hself (finite_ancestors t r.ppid),
    Tables.depth]

private theorem depth_root (hk : t.pids.Nodup) {r : ProcessRecord} (hr : r ∈ t.processes) (hout : r.ppid ∉ t.pids) :
    t.depth r.pid = 0 := by
  rw [Tables.depth, ancestors_eq hk hr, if_neg hout]
  exact Set.ncard_empty Int

/-! ### The lines -/

/-- A line shows the process of an entry, four characters further right for each level. -/
private def shown (l : TreeLine) : ProcessRecord × Nat := (l.row, l.lead.length)

private def entryShown (t : Tables) (e : Int × Nat) : ProcessRecord × Nat := ((t.getProcess e.1).getD {}, 4 * e.2)

/-- A loop with a counter and one without, whose turns show the same. -/
private theorem mapM_zipIdx_shows {α β γ δ : Type} {f : α × Nat → Option (List β)} {g : α → Option (List γ)} {F : β → δ}
    {G : γ → δ} {l : List α} {parts : List (List γ)} (hparts : l.mapM g = some parts) (k : Nat)
    (h : ∀ c ∈ l.zipIdx k, ∀ part, g c.1 = some part → ∃ lines, f c = some lines ∧ lines.map F = part.map G) :
    ∃ below, (l.zipIdx k).mapM f = some below ∧ below.flatten.map F = parts.flatten.map G := by
  induction l generalizing parts k with
  | nil =>
    obtain rfl := Option.some.inj hparts
    exact ⟨[], rfl, rfl⟩
  | cons a l ih =>
    rw [List.mapM_cons] at hparts
    obtain ⟨part, hpart, hparts⟩ := Option.bind_eq_some_iff.mp hparts
    obtain ⟨rest, hrest, hparts⟩ := Option.bind_eq_some_iff.mp hparts
    obtain rfl := Option.some.inj hparts
    rw [List.zipIdx_cons] at h ⊢
    obtain ⟨lines, hlines, hshown⟩ := h (a, k) List.mem_cons_self part hpart
    obtain ⟨below, hbelow, hshowns⟩ := ih hrest (k + 1) fun c hc => h c (List.mem_cons_of_mem _ hc)
    refine ⟨lines :: below, by rw [List.mapM_cons, hlines, hbelow]; rfl, ?_⟩
    rw [List.flatten_cons, List.flatten_cons, List.map_append, List.map_append, hshown, hshowns]

private theorem printTree_spec (hk : t.pids.Nodup) {fuel d : Nat} {lead : Str} (last : Bool) {pid : Int}
    (hpid : pid ∈ t.pids)
    (hlead : lead.length = 4 * d) {l : List (Int × Nat)} (h : outline (childPidsOf t) fuel d pid = some l) :
    ∃ lines, printTree t fuel lead last pid = some lines ∧ lines.map shown = l.map (entryShown t) := by
  induction fuel generalizing d lead last pid l with
  | zero => cases h
  | succ fuel ih =>
    obtain ⟨r, hr, rfl⟩ := List.mem_map.mp hpid
    have hrow := (getProcess_eq_some hk).mpr ⟨hr, rfl⟩
    rw [outline, Option.map_eq_some_iff] at h
    obtain ⟨parts, hparts, rfl⟩ := h
    rw [childPidsOf, List.mapM_map] at hparts
    obtain ⟨below, hbelow, hshown⟩ := mapM_zipIdx_shows (F := shown) (G := entryShown t)
      (f := fun c => printTree t fuel (lead ++ if last then "    ".toList else "|   ".toList)
        (c.2 + 1 == (t.children r.pid).length) c.1.pid) hparts 0 fun c hc part hpart => by
      refine ih _ ?_ ?_ hpart
      · have hmem := (List.mem_filter.mp (List.fst_mem_of_mem_zipIdx hc)).1
        exact List.mem_map_of_mem ((mem_allProcesses c.1).mp hmem)
      · rw [List.length_append, hlead]
        split <;> rfl
    refine ⟨⟨lead, last, r⟩ :: below.flatten, ?_, ?_⟩
    · rw [printTree, hrow]
      dsimp only
      rw [hbelow, Option.map_some]
    · rw [List.map_cons, List.map_cons, hshown, shown, entryShown, hrow, Option.getD_some, hlead]

/-! ### The drawing -/

/-- Every process below a root once, indented by its depth; the parent of an indented process stands on the last line
before that is indented by one level less. -/
structure Tables.DrawsTree (t : Tables) (lines : List TreeLine) : Prop where
  once : (lines.map (·.row.pid)).Nodup
  whole : ∀ r, r ∈ lines.map (·.row) ↔ r ∈ t.processes ∧ t.Rooted r.pid
  indented : ∀ l ∈ lines, l.lead.length = 4 * t.depth l.row.pid
  roots : ∀ l ∈ lines, l.lead = [] → l.row.ppid ∉ t.pids
  parents : ∀ before l after, lines = before ++ l :: after → l.lead ≠ [] →
    ∃ p, before.reverse.find? (fun q => q.lead.length + 4 = l.lead.length) = some p ∧ l.row.ppid = p.row.pid

/-- What the lines of all roots show. -/
private noncomputable def entries (t : Tables) (fuel : Nat) : List (Int × Nat) :=
  (rootPids t.allProcesses).flatMap fun r => (outline (rootedChildren t) fuel 0 r).getD []

private theorem rooted_of_root {p : Int} (h : p ∈ rootPids t.allProcesses) :
    ∃ r ∈ t.processes, r.pid = p ∧ r.ppid ∉ t.pids ∧ t.Rooted p := by
  obtain ⟨r, hr, rfl, hout⟩ := (mem_rootPids p).mp h
  exact ⟨r, hr, rfl, hout, r, hr, hout, .refl⟩

private theorem outline_root (hk : t.pids.Nodup) {fuel : Nat} (hfuel : t.pids.length ≤ fuel) {p : Int}
    (h : t.Rooted p) :
    outline (childPidsOf t) fuel 0 p = outline (rootedChildren t) fuel 0 p ∧
      (outline (rootedChildren t) fuel 0 p).isSome := by
  have hforest := isForest_rooted hk
  constructor
  · apply Outlines.outline_congr
    intro x hx
    obtain ⟨root, hroot, hout, hreach⟩ := h
    have hx := (reaches_rooted ⟨root, hroot, hout, hreach⟩ x).mp hx
    rw [rootedChildren, if_pos ⟨root, hroot, hout, hreach.trans hx⟩]
  · apply Outlines.outline_total hforest.wellFounded
    have hsub : subtree hforest.wellFounded p ⊆ t.pids := by
      intro x hx
      have hx := (reaches_rooted h x).mp ((mem_subtree _ p x).mp hx)
      rcases hx.cases_tail with rfl | ⟨q, -, r, hr, -, rfl⟩
      · exact h.mem_pids
      · exact List.mem_map_of_mem hr
    exact ((hforest.nodup_subtree p).subperm hsub).length_le.trans hfuel

private theorem entry_outline (hk : t.pids.Nodup) {fuel : Nat} (hfuel : t.pids.length ≤ fuel) {p : Int}
    (hp : p ∈ rootPids t.allProcesses) :
    outline (rootedChildren t) fuel 0 p = some ((outline (rootedChildren t) fuel 0 p).getD []) := by
  obtain ⟨-, -, -, -, hrooted⟩ := rooted_of_root hp
  obtain ⟨part, hpart⟩ := Option.isSome_iff_exists.mp (outline_root hk hfuel hrooted).2
  rw [hpart, Option.getD_some]

private theorem cmdTree_spec (hk : t.pids.Nodup) {fuel : Nat} (hfuel : t.pids.length ≤ fuel) :
    ∃ lines, cmdTree t fuel = some lines ∧ lines.map shown = (entries t fuel).map (entryShown t) := by
  have hparts : (rootPids t.allProcesses).mapM (outline (childPidsOf t) fuel 0) =
      some ((rootPids t.allProcesses).map fun r => (outline (rootedChildren t) fuel 0 r).getD []) := by
    apply StoppableLoops.mapM_eq_some
    intro p hp
    obtain ⟨-, -, -, -, hrooted⟩ := rooted_of_root hp
    rw [(outline_root hk hfuel hrooted).1]
    exact entry_outline hk hfuel hp
  obtain ⟨below, hbelow, hshown⟩ := mapM_zipIdx_shows (F := shown) (G := entryShown t)
    (f := fun r => printTree t fuel [] (r.2 + 1 == (rootPids t.allProcesses).length) r.1) hparts 0
      fun c hc part hpart => by
    obtain ⟨r, hr, hpid, -⟩ := rooted_of_root (List.fst_mem_of_mem_zipIdx hc)
    exact printTree_spec hk _ (hpid ▸ List.mem_map_of_mem hr) rfl hpart
  refine ⟨below.flatten, by rw [cmdTree, hbelow, Option.map_some], ?_⟩
  rw [hshown, entries, List.flatMap_def]

private theorem map_fst_entries (hk : t.pids.Nodup) {fuel : Nat} (hfuel : t.pids.length ≤ fuel) :
    (entries t fuel).map (·.1) = (rootPids t.allProcesses).flatMap (subtree (isForest_rooted hk).wellFounded) := by
  rw [entries, List.map_flatMap]
  apply List.flatMap_congr
  intro p hp
  exact Outlines.map_fst_outline _ (entry_outline hk hfuel hp)

private theorem nodup_entries (hk : t.pids.Nodup) {fuel : Nat} (hfuel : t.pids.length ≤ fuel) :
    ((entries t fuel).map (·.1)).Nodup := by
  rw [map_fst_entries hk hfuel]
  apply (isForest_rooted hk).nodup_subtrees
  · exact (allProcesses_nodup hk).sublist (List.filter_sublist.map _)
  · intro a ha b hb hreach
    obtain ⟨r, hr, rfl, -, hrooted⟩ := rooted_of_root ha
    obtain ⟨s, hs, rfl, hout, -⟩ := rooted_of_root hb
    exact DependencyGraph.root_top hk (List.mem_map_of_mem hr) hs hout ((reaches_rooted hrooted s.pid).mp hreach)

private theorem mem_entries (hk : t.pids.Nodup) {fuel : Nat} (hfuel : t.pids.length ≤ fuel) (p : Int) :
    p ∈ (entries t fuel).map (·.1) ↔ t.Rooted p := by
  rw [map_fst_entries hk hfuel, List.mem_flatMap]
  constructor
  · rintro ⟨root, hroot, hp⟩
    obtain ⟨r, hr, rfl, hout, hrooted⟩ := rooted_of_root hroot
    exact ⟨r, hr, hout, (reaches_rooted hrooted p).mp ((mem_subtree _ _ p).mp hp)⟩
  · rintro ⟨r, hr, hout, hreach⟩
    have hroot : r.pid ∈ rootPids t.allProcesses := (mem_rootPids r.pid).mpr ⟨r, hr, rfl, hout⟩
    exact ⟨r.pid, hroot, (mem_subtree _ _ p).mpr ((reaches_rooted ⟨r, hr, hout, .refl⟩ p).mpr hreach)⟩

private theorem entries_level (hk : t.pids.Nodup) {fuel : Nat} (hfuel : t.pids.length ≤ fuel) {e : Int × Nat}
    (he : e ∈ entries t fuel) : e.2 = t.depth e.1 := by
  obtain ⟨p, hp, he⟩ := List.mem_flatMap.mp he
  obtain ⟨r, hr, rfl, hout, -⟩ := rooted_of_root hp
  have hlevel := Outlines.level_eq (fun p c hc => depth_rooted hk hc) (entry_outline hk hfuel hp) e he
  rw [depth_root hk hr hout] at hlevel
  omega

private theorem entries_parent (hk : t.pids.Nodup) {fuel : Nat} (hfuel : t.pids.length ≤ fuel)
    {before after : List (Int × Nat)} {e : Int × Nat} (h : entries t fuel = before ++ e :: after) (he : 0 < e.2) :
    ∃ p, parentOf before e.2 = some p ∧ t.Child p.1 e.1 := by
  obtain ⟨roots, root, _, pre, post, hroots, hpart, rfl⟩ := Outlines.flatMap_split h
  have hroot : root ∈ rootPids t.allProcesses := hroots ▸ List.mem_append_right roots List.mem_cons_self
  obtain ⟨p, hp, hchild⟩ := Outlines.outline_parent (entry_outline hk hfuel hroot) hpart he
  refine ⟨p, ?_, ((mem_rootedChildren p.1 e.1).mp hchild).2⟩
  rw [parentOf] at hp ⊢
  rw [List.reverse_append, List.find?_append, hp]
  rfl

/-- A line and the entry that it shows. -/
private theorem shown_entry (hk : t.pids.Nodup) {l : TreeLine} {e : Int × Nat} (he : t.Rooted e.1)
    (h : shown l = entryShown t e) : l.row ∈ t.processes ∧ l.row.pid = e.1 ∧ l.lead.length = 4 * e.2 := by
  obtain ⟨r, hr, hpid⟩ := List.mem_map.mp he.mem_pids
  obtain ⟨hrow, hlead⟩ := Prod.mk.inj h
  rw [(getProcess_eq_some hk).mpr ⟨hr, hpid⟩, Option.getD_some] at hrow
  rw [hrow]
  exact ⟨hr, hpid, hlead⟩

section Drawn
variable (hk : t.pids.Nodup) {fuel : Nat} (hfuel : t.pids.length ≤ fuel) {lines : List TreeLine}
  (h : lines.map shown = (entries t fuel).map (entryShown t))
include hk hfuel

private theorem rooted_of_entry {e : Int × Nat} (he : e ∈ entries t fuel) : t.Rooted e.1 :=
  (mem_entries hk hfuel e.1).mp (List.mem_map_of_mem he)

include h

private theorem entry_of_line {l : TreeLine} (hl : l ∈ lines) :
    ∃ e ∈ entries t fuel, l.row ∈ t.processes ∧ l.row.pid = e.1 ∧ l.lead.length = 4 * e.2 := by
  obtain ⟨e, he, heq⟩ := List.mem_map.mp (h ▸ List.mem_map_of_mem hl : shown l ∈ (entries t fuel).map (entryShown t))
  exact ⟨e, he, shown_entry hk (rooted_of_entry hk hfuel he) heq.symm⟩

private theorem pids_lines : lines.map (·.row.pid) = (entries t fuel).map (·.1) := by
  have hfirst := congrArg (List.map fun x : ProcessRecord × Nat => x.1.pid) h
  rw [List.map_map, List.map_map] at hfirst
  refine hfirst.trans (List.map_congr_left fun e he => ?_)
  obtain ⟨r, hr, hpid⟩ := List.mem_map.mp (rooted_of_entry hk hfuel he).mem_pids
  rw [Function.comp_apply, entryShown, (getProcess_eq_some hk).mpr ⟨hr, hpid⟩]
  exact hpid

private theorem mem_lines (r : ProcessRecord) : r ∈ lines.map (·.row) ↔ r ∈ t.processes ∧ t.Rooted r.pid := by
  constructor
  · intro hr
    obtain ⟨l, hl, rfl⟩ := List.mem_map.mp hr
    obtain ⟨e, he, hrow, hpid, -⟩ := entry_of_line hk hfuel h hl
    exact ⟨hrow, hpid ▸ rooted_of_entry hk hfuel he⟩
  · rintro ⟨hr, hreach⟩
    have hpid := (mem_entries hk hfuel r.pid).mpr hreach
    rw [← pids_lines hk hfuel h] at hpid
    obtain ⟨l, hl, heq⟩ := List.mem_map.mp hpid
    obtain ⟨-, -, hrow, -⟩ := entry_of_line hk hfuel h hl
    exact List.mem_map.mpr ⟨l, hl, List.inj_on_of_nodup_map hk hrow hr heq⟩

/-- A process that stands at the margin has no stored parent. -/
private theorem top_of_margin {l : TreeLine} (hl : l ∈ lines) (hlead : l.lead = []) : l.row.ppid ∉ t.pids := by
  obtain ⟨e, he, hrow, hpid, hlen⟩ := entry_of_line hk hfuel h hl
  rw [hlead, List.length_nil, entries_level hk hfuel he, ← hpid] at hlen
  intro hin
  have hchild : t.Child l.row.ppid l.row.pid := ⟨l.row, hrow, rfl, rfl⟩
  have hdepth : t.depth l.row.pid = t.depth l.row.ppid + 1 := by
    apply depth_rooted hk
    refine (mem_rootedChildren _ _).mpr ⟨?_, hchild⟩
    obtain ⟨root, hroot, hout, hreach⟩ := hpid ▸ rooted_of_entry hk hfuel he
    rcases hreach.cases_tail with heq | ⟨q, hq, hqc⟩
    · rw [List.inj_on_of_nodup_map hk hrow hroot heq] at hin
      exact absurd hin hout
    · obtain rfl := Tables.child_unique t hk hqc hchild
      exact ⟨root, hroot, hout, hq⟩
  omega

omit hk hfuel h in
/-- The search among the lines is the search among the entries. -/
private theorem search_lines {before : List TreeLine} {before' : List (Int × Nat)}
    (hbefore : before.map shown = before'.map (entryShown t)) (level : Nat) :
    (before.reverse.find? fun q => decide (q.lead.length + 4 = 4 * level)).map shown =
      (parentOf before' level).map (entryShown t) := by
  calc
    _ = (before.reverse.map shown).find? (fun x => decide (x.2 + 4 = 4 * level)) := by
      rw [List.find?_map]
      rfl
    _ = (before'.reverse.map (entryShown t)).find? (fun x => decide (x.2 + 4 = 4 * level)) := by
      rw [List.map_reverse, List.map_reverse, hbefore]
    _ = (before'.reverse.find? fun e' => decide (4 * e'.2 + 4 = 4 * level)).map (entryShown t) := List.find?_map
    _ = (parentOf before' level).map (entryShown t) := by
      rw [parentOf]
      congr 2
      funext e'
      exact decide_eq_decide.mpr (by omega)

/-- The last line before an indented one that is indented by one level less is its parent's. -/
private theorem parent_line {before after : List TreeLine} {l : TreeLine} (hsplit : lines = before ++ l :: after)
    (hlead : l.lead ≠ []) : ∃ q, before.reverse.find? (fun q => decide (q.lead.length + 4 = l.lead.length)) = some q ∧
      l.row.ppid = q.row.pid := by
  rw [hsplit, List.map_append, List.map_cons] at h
  obtain ⟨before', rest, hentries, hbefore, hrest⟩ := List.map_eq_append_iff.mp h.symm
  obtain ⟨e, after', rfl, heq, -⟩ := List.map_eq_cons_iff.mp hrest
  have he : e ∈ entries t fuel := hentries ▸ List.mem_append_right before' List.mem_cons_self
  obtain ⟨hrow, hpid, hlen⟩ := shown_entry hk (rooted_of_entry hk hfuel he) heq.symm
  have hlevel : 0 < e.2 := by
    have := List.length_pos_iff.mpr hlead
    omega
  obtain ⟨p, hp, hchild⟩ := entries_parent hk hfuel hentries hlevel
  have hsearch := search_lines hbefore.symm e.2
  rw [hp, Option.map_some] at hsearch
  obtain ⟨q, hq, hshown⟩ := Option.map_eq_some_iff.mp hsearch
  have hmem : p ∈ before' := List.mem_reverse.mp (List.mem_of_find?_eq_some hp)
  have hpin : p ∈ entries t fuel := hentries ▸ List.mem_append_left _ hmem
  obtain ⟨-, hqpid, -⟩ := shown_entry hk (rooted_of_entry hk hfuel hpin) hshown
  obtain ⟨r, hr, hrppid, hrpid⟩ := hchild
  have hsame : r = l.row := List.inj_on_of_nodup_map hk hr hrow (hrpid.trans hpid.symm)
  exact ⟨q, hlen ▸ hq, by rw [hqpid, ← hrppid, hsame]⟩

private theorem drawsTree_of_shown : t.DrawsTree lines := by
  refine ⟨?_, mem_lines hk hfuel h, fun l hl => ?_, fun l hl hlead => top_of_margin hk hfuel h hl hlead,
    fun before l after hsplit hlead => parent_line hk hfuel h hsplit hlead⟩
  · rw [pids_lines hk hfuel h]
    exact nodup_entries hk hfuel
  · obtain ⟨e, he, -, hpid, hlen⟩ := entry_of_line hk hfuel h hl
    rw [hlen, entries_level hk hfuel he, hpid]

end Drawn

/-- On every table, parent links in circles included, the printing ends and draws the processes below the roots, which
without such circles are all. -/
theorem tree_drawn (t : Tables) (hk : t.pids.Nodup) {fuel : Nat} (hfuel : t.pids.length ≤ fuel) :
    ∃ lines, cmdTree t fuel = some lines ∧ t.DrawsTree lines ∧ (t.Acyclic → (lines.map (·.row)).Perm t.processes) := by
  obtain ⟨lines, hlines, hshown⟩ := cmdTree_spec hk hfuel
  have hdraws := drawsTree_of_shown hk hfuel hshown
  refine ⟨lines, hlines, hdraws, fun hacyclic => ?_⟩
  have honce : (lines.map (·.row)).Nodup := by
    apply List.Nodup.of_map (·.pid)
    rw [List.map_map]
    exact hdraws.once
  refine (List.perm_ext_iff_of_nodup honce (List.Nodup.of_map _ hk)).mpr fun r => ?_
  rw [hdraws.whole]
  refine ⟨And.left, fun hr => ⟨hr, ?_⟩⟩
  exact DependencyGraph.exists_root hacyclic (List.mem_map_of_mem hr)

end Proofs

theorem tree_drawn_buildBesideCycle : ∃ lines, cmdTree buildBesideCycle 5 = some lines ∧
    buildBesideCycle.DrawsTree lines := by
  obtain ⟨lines, hlines, hdraws, -⟩ := @tree_drawn buildBesideCycle (by decide) 5 (by decide)
  exact ⟨lines, hlines, hdraws⟩

end Bdtrace
