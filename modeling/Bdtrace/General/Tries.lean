import Mathlib.Algebra.BigOperators.Group.List.Basic
import Mathlib.Data.List.Infix
import Mathlib.Data.List.Nodup
import Mathlib.Order.Basic

/-! Trees of keys, where each node holds what the sequences through it add up to. -/
namespace Tries

/-- Siblings with their children; the children of a node come before its next siblings. -/
inductive Forest (κ β : Type*) where
  | nil
  | cons (key : κ) (val : β) (children rest : Forest κ β)
  deriving DecidableEq, Repr

section Definitions
variable {κ β : Type*}

namespace Forest

/-- The node of a key among the siblings. -/
def lookup [DecidableEq κ] (k : κ) : Forest κ β → Option (β × Forest κ β)
  | nil => none
  | cons k' v ch rest => if k' = k then some (v, ch) else rest.lookup k

/-- The node of a key replaced, or put behind the siblings. -/
def set [DecidableEq κ] : Forest κ β → κ → β → Forest κ β → Forest κ β
  | nil, k, v, ch => cons k v ch nil
  | cons k' v' ch' rest, k, v, ch => if k' = k then cons k v ch rest else cons k' v' ch' (rest.set k v ch)

/-- The nodes with the keys that lead to them, each in front of those below it. -/
def entries : Forest κ β → List (List κ × β)
  | nil => []
  | cons k v ch rest => ([k], v) :: (ch.entries.map fun e => (k :: e.1, e.2)) ++ rest.entries

/-- No two siblings share a key. -/
def Distinct [DecidableEq κ] : Forest κ β → Prop
  | nil => True
  | cons k _ ch rest => rest.lookup k = none ∧ ch.Distinct ∧ rest.Distinct

/-- A node put among sorted siblings. -/
def insertSorted (before : κ → κ → Bool) : Forest κ β → κ → β → Forest κ β → Forest κ β
  | nil, k, v, ch => cons k v ch nil
  | cons k' v' ch' rest, k, v, ch =>
    if before k' k then cons k' v' ch' (rest.insertSorted before k v ch) else cons k v ch (cons k' v' ch' rest)

/-- The siblings of every level sorted by their keys. -/
def sorted (before : κ → κ → Bool) : Forest κ β → Forest κ β
  | nil => nil
  | cons k v ch rest => (rest.sorted before).insertSorted before k v (ch.sorted before)

end Forest

/-- What the node at the end of a sequence holds. -/
def value [DecidableEq κ] : List κ → Forest κ β → Option β
  | [], _ => none
  | k :: ks, f => (f.lookup k).bind fun e => if ks = [] then some e.1 else value ks e.2

/-- A weight added along a sequence. -/
def add [DecidableEq κ] [Zero β] [Add β] : List κ → β → Forest κ β → Forest κ β
  | [], _, f => f
  | k :: ks, w, f =>
    let e := (f.lookup k).getD (0, .nil)
    f.set k (e.1 + w) (add ks w e.2)

/-- Several sequences with their weights, one after another. -/
def addAll [DecidableEq κ] [Zero β] [Add β] (items : List (List κ × β)) : Forest κ β :=
  items.foldl (fun f item => add item.1 item.2 f) .nil

end Definitions

open Forest

section Lookup
variable {κ β : Type*} [DecidableEq κ]

private theorem lookup_set (k k' : κ) (v : β) (ch f : Forest κ β) :
    (f.set k v ch).lookup k' = if k = k' then some (v, ch) else f.lookup k' := by
  induction f with
  | nil => rfl
  | cons key val children rest ihc ih =>
    rw [Forest.set]
    by_cases hkey : key = k
    · subst hkey
      rw [if_pos rfl, Forest.lookup, Forest.lookup]
      split <;> rfl
    · rw [if_neg hkey, Forest.lookup, ih, Forest.lookup]
      by_cases hk' : key = k'
      · subst hk'
        rw [if_pos rfl, if_pos rfl, if_neg fun h : k = key => hkey h.symm]
      · rw [if_neg hk', if_neg hk']

private theorem distinct_set {k : κ} {v : β} {ch f : Forest κ β} (hf : f.Distinct) (hch : ch.Distinct) :
    (f.set k v ch).Distinct := by
  induction f with
  | nil => exact ⟨rfl, hch, trivial⟩
  | cons key val children rest ihc ih =>
    obtain ⟨hnone, hchildren, hrest⟩ := hf
    rw [Forest.set]
    split
    · rename_i hkey
      exact ⟨hkey ▸ hnone, hch, hrest⟩
    · rename_i hkey
      refine ⟨?_, hchildren, ih hrest⟩
      rw [lookup_set, if_neg fun h : k = key => hkey h.symm, hnone]

private theorem distinct_lookup {k : κ} {e : β × Forest κ β} {f : Forest κ β} (hf : f.Distinct)
    (h : f.lookup k = some e) :
    e.2.Distinct := by
  induction f with
  | nil => cases h
  | cons key val children rest ihc ih =>
    rw [Forest.lookup] at h
    split at h
    · obtain rfl := Option.some.inj h
      exact hf.2.1
    · exact ih hf.2.2 h

theorem value_nil (ks : List κ) : value ks (.nil : Forest κ β) = none := by
  cases ks <;> rfl

end Lookup

section Adding
variable {κ β : Type*} [DecidableEq κ]

private theorem distinct_add [Zero β] [Add β] (ks : List κ) (w : β) {f : Forest κ β} (hf : f.Distinct) :
    (add ks w f).Distinct := by
  induction ks generalizing f with
  | nil => exact hf
  | cons k ks ih =>
    rw [add]
    apply distinct_set hf
    apply ih
    cases hlook : f.lookup k with
    | none => trivial
    | some e => exact distinct_lookup hf hlook

/-- A weight reaches the nodes along its sequence, and no others. -/
private theorem value_add [Zero β] [Add β] (ks q : List κ) (w : β) (f : Forest κ β) :
    value q (add ks w f) = if q ≠ [] ∧ q <+: ks then some ((value q f).getD 0 + w) else value q f := by
  induction ks generalizing q f with
  | nil =>
    rw [add, if_neg]
    rintro ⟨hne, hpre⟩
    exact hne (List.prefix_nil.mp hpre)
  | cons k ks ih =>
    cases q with
    | nil => rw [if_neg fun h => h.1 rfl, value, value]
    | cons k' q =>
      rw [add, value, lookup_set, value]
      by_cases hk : k = k'
      · subst hk
        rw [if_pos rfl, Option.bind_some]
        by_cases hq : q = []
        · subst hq
          rw [if_pos rfl, if_pos ⟨List.cons_ne_nil _ _, List.cons_prefix_cons.mpr ⟨rfl, List.nil_prefix⟩⟩]
          cases f.lookup k <;> rfl
        · rw [if_neg hq, ih]
          have hiff : (k :: q ≠ [] ∧ k :: q <+: k :: ks) ↔ (q ≠ [] ∧ q <+: ks) := by
            rw [List.cons_prefix_cons]
            exact ⟨fun h => ⟨hq, h.2.2⟩, fun h => ⟨List.cons_ne_nil _ _, rfl, h.2⟩⟩
          simp only [hiff]
          cases f.lookup k with
          | none => simp [hq, value_nil]
          | some e => simp [hq]
      · rw [if_neg hk, if_neg]
        rintro ⟨-, hpre⟩
        exact hk (List.cons_prefix_cons.mp hpre).1.symm

theorem distinct_addAll [Zero β] [Add β] (items : List (List κ × β)) : (addAll items).Distinct := by
  rw [addAll]
  have hnil : (.nil : Forest κ β).Distinct := trivial
  generalize (.nil : Forest κ β) = f at hnil
  induction items generalizing f with
  | nil => exact hnil
  | cons item items ih => exact ih _ (distinct_add item.1 item.2 hnil)

/-- A node is there if some sequence passes through it, and holds the sum of those that do. -/
theorem value_addAll [AddMonoid β] (items : List (List κ × β)) {q : List κ} (hq : q ≠ []) : value q (addAll items) =
    if ∃ item ∈ items, q <+: item.1 then some ((items.filter fun item => q <+: item.1).map Prod.snd).sum else none := by
  induction items using List.reverseRecOn with
  | nil => rw [addAll, List.foldl_nil, value_nil, if_neg nofun]
  | append_singleton items item ih =>
    have hstep : addAll (items ++ [item]) = add item.1 item.2 (addAll items) := by
      rw [addAll, List.foldl_append, List.foldl_cons, List.foldl_nil, addAll]
    have hsome : (∃ i ∈ items ++ [item], q <+: i.1) ↔ (∃ i ∈ items, q <+: i.1) ∨ q <+: item.1 := by
      simp only [List.mem_append, List.mem_singleton, or_and_right, exists_or, exists_eq_left]
    rw [hstep, value_add, ih, List.filter_append]
    by_cases hitem : q <+: item.1
    · rw [if_pos ⟨hq, hitem⟩, if_pos (hsome.mpr (.inr hitem)), List.filter_singleton, decide_eq_true hitem, cond_true,
        List.map_append, List.sum_append, List.map_singleton, List.sum_singleton]
      split
      · rfl
      · rename_i hnone
        have hempty : items.filter (fun item => q <+: item.1) = [] :=
          List.filter_eq_nil_iff.mpr fun i hi => by simpa using fun hpre => hnone ⟨i, hi, hpre⟩
        rw [hempty]
        rfl
    · rw [if_neg fun h => hitem h.2, List.filter_singleton, decide_eq_false hitem, cond_false, List.append_nil]
      simp only [hsome, hitem, or_false]

end Adding

section Entries
variable {κ β : Type*} [DecidableEq κ]

theorem mem_entries {f : Forest κ β} (hf : f.Distinct) {q : List κ} {v : β} :
    (q, v) ∈ f.entries ↔ value q f = some v := by
  induction f generalizing q with
  | nil =>
    rw [value_nil]
    exact iff_of_false List.not_mem_nil nofun
  | cons k val children rest ihc ih =>
    obtain ⟨hnone, hchildren, hrest⟩ := hf
    simp only [entries, List.mem_append, List.mem_cons, List.mem_map, Prod.mk.injEq, Prod.exists]
    rw [ih hrest]
    cases q with
    | nil => simp [value]
    | cons k' q =>
      have hbelow : (∃ q' v', (q', v') ∈ children.entries ∧ k :: q' = k' :: q ∧ v' = v) ↔
          k = k' ∧ value q children = some v := by
        constructor
        · rintro ⟨q', v', hin, heq, rfl⟩
          obtain ⟨rfl, rfl⟩ := List.cons.inj heq
          exact ⟨rfl, (ihc hchildren).mp hin⟩
        · rintro ⟨rfl, hin⟩
          exact ⟨q, v, (ihc hchildren).mpr hin, rfl, rfl⟩
      rw [hbelow, value, value, Forest.lookup]
      by_cases hk : k = k'
      · subst hk
        rw [hnone]
        by_cases hq : q = []
        · subst hq
          simp [value, eq_comm]
        · simp [hq]
      · simp [hk, Ne.symm hk]

theorem nodup_entries {f : Forest κ β} (hf : f.Distinct) : (f.entries.map Prod.fst).Nodup := by
  induction f with
  | nil => exact List.nodup_nil
  | cons k val children rest ihc ih =>
    obtain ⟨hnone, hchildren, hrest⟩ := hf
    have hbelow : ∀ q ∈ children.entries.map Prod.fst, q ≠ [] := by
      rintro q hq rfl
      obtain ⟨⟨q, v⟩, he, rfl⟩ := List.mem_map.mp hq
      cases (mem_entries hchildren).mp he
    have hbeside : ∀ q, k :: q ∉ rest.entries.map Prod.fst := by
      intro q hq
      obtain ⟨⟨q', v⟩, he, heq⟩ := List.mem_map.mp hq
      have hval := (mem_entries hrest).mp he
      rw [show q' = k :: q from heq, value, hnone] at hval
      cases hval
    rw [entries, List.cons_append, List.map_cons, List.map_append, List.map_map, List.nodup_cons, List.nodup_append]
    have hfront : (children.entries.map (Prod.fst ∘ fun e => (k :: e.1, e.2))) =
        (children.entries.map Prod.fst).map (k :: ·) := by
      rw [List.map_map]
      rfl
    rw [hfront, List.mem_append, not_or]
    refine ⟨⟨fun hin => ?_, hbeside []⟩, List.Nodup.map (fun _ _ h => (List.cons.inj h).2) (ihc hchildren), ih hrest,
      fun a ha b hb => ?_⟩
    · obtain ⟨q, hq, heq⟩ := List.mem_map.mp hin
      exact hbelow q hq (List.cons.inj heq).2
    · obtain ⟨q, -, rfl⟩ := List.mem_map.mp ha
      rintro rfl
      exact hbeside q hb

omit [DecidableEq κ] in
theorem sorted_eq_nil {before : κ → κ → Bool} {f : Forest κ β} : f.sorted before = .nil ↔ f = .nil := by
  cases f with
  | nil => exact iff_of_true rfl rfl
  | cons k v ch rest =>
    refine iff_of_false ?_ nofun
    rw [sorted]
    cases rest.sorted before with
    | nil => exact nofun
    | cons k' v' ch' rest' =>
      rw [insertSorted]
      split <;> exact nofun

end Entries

section Totals
variable {κ β : Type*} [DecidableEq κ] [AddCommMonoid β]

/-- What the nodes of the first level hold together. -/
def total : Forest κ β → β
  | .nil => 0
  | .cons _ v _ rest => v + total rest

private theorem total_set (f : Forest κ β) (k : κ) (w : β) (ch : Forest κ β) :
    total (f.set k (((f.lookup k).map Prod.fst).getD 0 + w) ch) = total f + w := by
  induction f with
  | nil => simp [Forest.set, Forest.lookup, total]
  | cons key val children rest ihc ih =>
    rw [Forest.lookup, Forest.set]
    by_cases hkey : key = k
    · rw [if_pos hkey, if_pos hkey, total, total, Option.map_some, Option.getD_some, add_right_comm]
    · rw [if_neg hkey, if_neg hkey, total, total, ih, add_assoc]

/-- All sequences but the empty ones are counted on the first level. -/
theorem total_addAll (items : List (List κ × β)) :
    total (addAll items) = ((items.filter fun item => item.1 ≠ []).map Prod.snd).sum := by
  have hadd : ∀ (ks : List κ) (w : β) (f : Forest κ β), total (add ks w f) = total f + if ks ≠ [] then w else 0 := by
    intro ks w f
    cases ks with
    | nil => rw [add, if_neg fun h => h rfl, add_zero]
    | cons k ks =>
      rw [if_pos (List.cons_ne_nil _ _), ← total_set f k w (add ks w ((f.lookup k).getD (0, .nil)).2), add]
      cases f.lookup k <;> rfl
  induction items using List.reverseRecOn with
  | nil => rfl
  | append_singleton items item ih =>
    rw [addAll, List.foldl_append, List.foldl_cons, List.foldl_nil, hadd, ← addAll, ih,
      List.filter_append, List.map_append,
      List.sum_append, List.filter_singleton]
    by_cases hitem : item.1 = [] <;> simp [hitem]

end Totals

end Tries
