import Std.Data.TreeMap.Lemmas
import Std.Data.TreeSet.Lemmas
import Mathlib.Algebra.BigOperators.Group.Finset.Piecewise
import Mathlib.Algebra.BigOperators.Group.List.Lemmas
import Mathlib.Algebra.Order.Ring.Int
import Mathlib.Data.List.Dedup
import Mathlib.Data.Prod.Lex

/-! Rows tallied by a key in an ordered map. -/
namespace Tally
open Std (TreeMap TreeSet)

section Definitions
variable {ρ κ β : Type*} (key : ρ → Option κ) (start : β) (add : β → ρ → β)

/-- One row: added at its key, to `start` when the key is new. A row without a key is passed over. -/
def step [Ord κ] (m : TreeMap κ β) (r : ρ) : TreeMap κ β :=
  match key r with
  | none => m
  | some k => m.alter k fun b => some (add (b.getD start) r)

def tally [Ord κ] (rows : List ρ) : TreeMap κ β := rows.foldl (step key start add) ∅

/-- The rows of one key. -/
def rowsOf [DecidableEq κ] (rows : List ρ) (k : κ) : List ρ := rows.filter fun r => key r = some k

end Definitions

section Rows
variable {ρ κ : Type*} [DecidableEq κ] {key : ρ → Option κ} {rows : List ρ}

private theorem rowsOf_cons (r : ρ) (rows : List ρ) (k : κ) :
    rowsOf key (r :: rows) k = if key r = some k then r :: rowsOf key rows k else rowsOf key rows k := by
  by_cases h : key r = some k <;> simp [rowsOf, h]

/-- Where every row has a key. -/
theorem rowsOf_some (key : ρ → κ) (rows : List ρ) (k : κ) :
    rowsOf (fun r => some (key r)) rows k = rows.filter fun r => key r = k := by
  rw [rowsOf]
  simp only [Option.some.injEq]

theorem rowsOf_ne_nil {k : κ} : rowsOf key rows k ≠ [] ↔ ∃ r ∈ rows, key r = some k := by
  simp [rowsOf]

/-- Every row with a key is counted under one of the keys. -/
theorem sum_rowsOf {keys : List κ} (hkeys : keys.Nodup) (hmem : ∀ k, k ∈ keys ↔ ∃ r ∈ rows, key r = some k) :
    (keys.map fun k => (rowsOf key rows k).length).sum = (rows.filterMap key).length := by
  have hperm : keys.Perm (rows.filterMap key).dedup := by
    apply (List.perm_ext_iff_of_nodup hkeys (List.nodup_dedup _)).mpr
    intro k
    rw [hmem, List.mem_dedup, List.mem_filterMap]
  have hcount : ∀ k, (rowsOf key rows k).length = (rows.filterMap key).count k := by
    intro k
    rw [List.count_filterMap, rowsOf, ← List.countP_eq_length_filter]
    simp only [beq_eq_decide]
  simp only [hcount]
  rw [(hperm.map _).sum_eq, List.sum_map_count_dedup_eq_length]

end Rows

section Lookup
variable {ρ κ β : Type*} [Ord κ] [Std.TransOrd κ] [Std.LawfulEqOrd κ] [DecidableEq κ]
variable {key : ρ → Option κ} {start : β} {add : β → ρ → β} {rows : List ρ}

private theorem getElem?_step (m : TreeMap κ β) (r : ρ) (k : κ) :
    (step key start add m r)[k]? = if key r = some k then some (add (m[k]?.getD start) r) else m[k]? := by
  unfold step
  cases hkey : key r with
  | none => rw [if_neg (Option.some_ne_none k).symm]
  | some k' =>
    rw [TreeMap.getElem?_alter]
    by_cases hk : k' = k
    · subst hk
      rw [if_pos Std.ReflCmp.compare_self, if_pos rfl]
    · rw [if_neg (mt Std.LawfulEqOrd.eq_of_compare hk), if_neg (mt Option.some.inj hk)]

private theorem getElem?_foldl (rows : List ρ) (m : TreeMap κ β) (k : κ) : (rows.foldl (step key start add) m)[k]? =
    if rowsOf key rows k = [] then m[k]? else some ((rowsOf key rows k).foldl add (m[k]?.getD start)) := by
  induction rows generalizing m with
  | nil => rfl
  | cons r rows ih =>
    rw [List.foldl_cons, ih, getElem?_step, rowsOf_cons]
    by_cases hr : key r = some k
    · rw [if_pos hr, if_pos hr, if_neg (List.cons_ne_nil _ _), List.foldl_cons]
      split
      · rename_i hrest
        rw [hrest, List.foldl_nil]
      · rfl
    · rw [if_neg hr, if_neg hr]

/-- What is found at a key is made of its rows, in their order. -/
private theorem getElem?_tally (rows : List ρ) (k : κ) : (tally key start add rows)[k]? =
    if rowsOf key rows k = [] then none else some ((rowsOf key rows k).foldl add start) := by
  rw [tally, getElem?_foldl, TreeMap.getElem?_emptyc]
  rfl

theorem mem_toList_tally {e : κ × β} : e ∈ (tally key start add rows).toList ↔
    (∃ r ∈ rows, key r = some e.1) ∧ e.2 = (rowsOf key rows e.1).foldl add start := by
  rw [TreeMap.mem_toList_iff_getElem?_eq_some, getElem?_tally, ← rowsOf_ne_nil]
  split
  · rename_i hnone
    exact iff_of_false nofun fun h => h.1 hnone
  · rename_i hsome
    rw [Option.some.injEq, eq_comm, and_iff_right hsome]

/-- The keys are those of the rows. -/
theorem mem_keys_tally {k : κ} : k ∈ (tally key start add rows).toList.map Prod.fst ↔ ∃ r ∈ rows, key r = some k := by
  rw [List.mem_map]
  constructor
  · rintro ⟨e, he, rfl⟩
    exact (mem_toList_tally.mp he).1
  · intro h
    exact ⟨(k, (rowsOf key rows k).foldl add start), mem_toList_tally.mpr ⟨h, rfl⟩, rfl⟩

omit [Std.LawfulEqOrd κ] [DecidableEq κ] in
theorem nodup_keys_tally (rows : List ρ) : ((tally key start add rows).toList.map Prod.fst).Nodup := by
  rw [TreeMap.map_fst_toList_eq_keys]
  exact TreeMap.nodup_keys

end Lookup

/-! ### Entries that begin with their first row -/

section Gathering
variable {ρ κ β : Type*} (key : ρ → Option κ) (add : Option β → ρ → β)

/-- One row: added to what stands at its key, which may be nothing. -/
def gatherStep [Ord κ] (m : TreeMap κ β) (r : ρ) : TreeMap κ β :=
  match key r with
  | none => m
  | some k => m.alter k fun b => some (add b r)

def gather [Ord κ] (rows : List ρ) : TreeMap κ β := rows.foldl (gatherStep key add) ∅

/-- What the rows of one key come to. -/
def gathered (rows : List ρ) : Option β := rows.foldl (fun b r => some (add b r)) none

end Gathering

section Gathered
variable {ρ κ β : Type*} [Ord κ] [Std.TransOrd κ] [Std.LawfulEqOrd κ] [DecidableEq κ]
variable {key : ρ → Option κ} {add : Option β → ρ → β} {rows : List ρ}

private theorem getElem?_foldl_gatherStep (rows : List ρ) (m : TreeMap κ β) (k : κ) :
    (rows.foldl (gatherStep key add) m)[k]? = (rowsOf key rows k).foldl (fun b r => some (add b r)) m[k]? := by
  induction rows generalizing m with
  | nil => rfl
  | cons r rows ih =>
    have hstep : (gatherStep key add m r)[k]? = if key r = some k then some (add m[k]? r) else m[k]? := by
      unfold gatherStep
      cases hkey : key r with
      | none => rw [if_neg (Option.some_ne_none k).symm]
      | some k' =>
        rw [TreeMap.getElem?_alter]
        by_cases hk : k' = k
        · subst hk
          rw [if_pos Std.ReflCmp.compare_self, if_pos rfl]
        · rw [if_neg (mt Std.LawfulEqOrd.eq_of_compare hk), if_neg (mt Option.some.inj hk)]
    rw [List.foldl_cons, ih, hstep, rowsOf_cons]
    by_cases hr : key r = some k
    · rw [if_pos hr, if_pos hr, List.foldl_cons]
    · rw [if_neg hr, if_neg hr]

theorem mem_toList_gather {e : κ × β} : e ∈ (gather key add rows).toList ↔
    gathered add (rowsOf key rows e.1) = some e.2 := by
  rw [TreeMap.mem_toList_iff_getElem?_eq_some, gather, getElem?_foldl_gatherStep, TreeMap.getElem?_emptyc]
  rfl

omit [Ord κ] [Std.TransOrd κ] [Std.LawfulEqOrd κ] in
theorem isSome_gathered {k : κ} : (gathered add (rowsOf key rows k)).isSome ↔ ∃ r ∈ rows, key r = some k := by
  rw [← rowsOf_ne_nil]
  induction rowsOf key rows k using List.reverseRecOn with
  | nil => simp [gathered]
  | append_singleton rows r ih => simp [gathered]

theorem mem_keys_gather {k : κ} : k ∈ (gather key add rows).toList.map Prod.fst ↔ ∃ r ∈ rows, key r = some k := by
  have hsome : (gathered add (rowsOf key rows k)).isSome ↔ ∃ r ∈ rows, key r = some k := isSome_gathered
  rw [← hsome, Option.isSome_iff_exists, List.mem_map]
  constructor
  · rintro ⟨e, he, rfl⟩
    exact ⟨e.2, mem_toList_gather.mp he⟩
  · rintro ⟨b, hb⟩
    exact ⟨(k, b), mem_toList_gather.mpr hb, rfl⟩

end Gathered

/-- Rows counted key by key, for the keys of a set. -/
theorem sum_length_filter {ρ κ : Type*} [DecidableEq κ] (s : Finset κ) (rows : List ρ) (key : ρ → κ) :
    ∑ k ∈ s, (rows.filter fun r => key r = k).length = (rows.filter fun r => key r ∈ s).length := by
  induction rows with
  | nil => simp
  | cons r rows ih =>
    have hone : ∀ k, ((r :: rows).filter fun r => key r = k).length =
        (if key r = k then 1 else 0) + (rows.filter fun r => key r = k).length := by
      intro k
      by_cases hk : key r = k
      · simp [hk, Nat.add_comm]
      · simp [hk]
    simp only [hone, Finset.sum_add_distrib, Finset.sum_ite_eq, ih]
    by_cases hr : key r ∈ s
    · simp [hr, Nat.add_comm]
    · simp [hr]

/-- A set with the members of a list has as many as the list has without repetition. -/
theorem size_eq_length_dedup {α : Type*} [Ord α] [Std.TransOrd α] [Std.LawfulEqOrd α] [DecidableEq α] {s : TreeSet α}
    {l : List α} (h : ∀ a, a ∈ s ↔ a ∈ l) : s.size = l.dedup.length := by
  rw [← TreeSet.length_toList]
  apply List.Perm.length_eq
  have hnodup : s.toList.Nodup := by
    apply TreeSet.distinct_toList.imp
    intro a b hne heq
    exact hne (heq ▸ Std.ReflCmp.compare_self)
  apply (List.perm_ext_iff_of_nodup hnodup (List.nodup_dedup l)).mpr
  intro a
  rw [TreeSet.mem_toList, List.mem_dedup, h]

/-! ### The first entries of a ranking -/

/-- What is not among the first comes behind all of them. -/
theorem behind_take {α : Type*} {R : α → α → Prop} {l : List α} {a : α} {n : Nat} (hl : l.Pairwise R) (ha : a ∈ l)
    (hout : a ∉ l.take n) : (l.take n).length = n ∧ ∀ b ∈ l.take n, R b a := by
  rw [← List.take_append_drop n l, List.mem_append] at ha
  have hbehind := ha.resolve_left hout
  have hlong := List.length_pos_of_mem hbehind
  rw [List.length_drop] at hlong
  rw [← List.take_append_drop n l, List.pairwise_append] at hl
  refine ⟨?_, fun b hb => hl.2.2 b hb a hbehind⟩
  rw [List.length_take]
  omega

/-- Pairs with negated weights: a greater weight comes first, among equal weights the smaller key. -/
theorem lt_iff_outranks {κ : Type*} [LT κ] {e e' : Int ×ₗ κ} {w w' : Int} (hw : (ofLex e).1 = -w)
    (hw' : (ofLex e').1 = -w') :
    e < e' ↔ w' < w ∨ w = w' ∧ (ofLex e).2 < (ofLex e').2 := by
  rw [Prod.Lex.lt_iff, hw, hw', neg_lt_neg_iff, neg_inj]

end Tally
