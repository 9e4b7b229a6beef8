import Bdtrace.General.Worklist
import Mathlib.Data.Finset.Card
import Std.Data.TreeSet.Lemmas

/-! First-in first-out worklists with a visited set. Every element is queued at most once, so that they
end on every finite graph, cyclic ones included. -/
namespace Exploration
open Std (TreeSet)
open Worklist (Reaches)

/-- What has been seen, and what of it is still queued. -/
structure State (α : Type) [Ord α] where
  seen : TreeSet α := ∅
  queue : List α := []

variable {α : Type} [Ord α]

def State.push (s : State α) (a : α) : State α where
  seen := s.seen.insert a
  queue := if a ∈ s.seen then s.queue else s.queue ++ [a]

def State.pushAll (s : State α) (as : List α) : State α := as.foldl State.push s

/-- The popped elements in order and the seen ones, or `none` when the fuel is too small. -/
def explore (next : α → List α) : Nat → State α → Option (List α × TreeSet α)
  | _, ⟨seen, []⟩ => some ([], seen)
  | 0, ⟨_, _ :: _⟩ => none
  | fuel + 1, ⟨seen, a :: queue⟩ =>
    (explore next fuel (State.pushAll ⟨seen, queue⟩ (next a))).map fun found => (a :: found.1, found.2)

/-- More fuel changes nothing. -/
theorem explore_mono {next : α → List α} {fuel fuel' : Nat} (hle : fuel ≤ fuel') {s : State α}
    {found : List α × TreeSet α} (h : explore next fuel s = some found) : explore next fuel' s = some found := by
  induction fuel generalizing fuel' s found with
  | zero =>
    rcases s with ⟨seen, _ | ⟨a, queue⟩⟩
    · cases fuel' <;> exact h
    · cases h
  | succ fuel ih =>
    obtain ⟨fuel', rfl⟩ := Nat.exists_eq_add_of_le' (Nat.succ_le_of_lt (Nat.lt_of_lt_of_le (Nat.succ_pos fuel) hle))
    rcases s with ⟨seen, _ | ⟨a, queue⟩⟩
    · exact h
    · rw [explore] at h ⊢
      obtain ⟨rest, hrest, rfl⟩ := Option.map_eq_some_iff.mp h
      rw [ih (Nat.le_of_succ_le_succ hle) hrest, Option.map_some]

/-- What holds between two pops: the popped elements are closed, and all that is seen is popped or queued. -/
structure Kept (next : α → List α) (seeds popped : List α) (s : State α) : Prop where
  split : ∀ a, a ∈ s.seen ↔ a ∈ popped ∨ a ∈ s.queue
  once : (popped ++ s.queue).Nodup
  closed : ∀ a ∈ popped, ∀ b ∈ next a, b ∈ s.seen
  seeded : ∀ a ∈ seeds, a ∈ s.seen
  reached : ∀ a ∈ s.seen, ∃ b ∈ seeds, Reaches next b a

variable {next : α → List α} {seeds popped : List α}

/-- A worklist that has run empty has popped what is reachable from the seeds, once each. -/
structure Explored (next : α → List α) (seeds popped : List α) (seen : TreeSet α) : Prop where
  once : popped.Nodup
  seen : ∀ a, a ∈ seen ↔ a ∈ popped
  reached : ∀ a, a ∈ popped ↔ ∃ b ∈ seeds, Reaches next b a

theorem Kept.finished {seen : TreeSet α} (h : Kept next seeds popped ⟨seen, []⟩) : Explored next seeds popped seen := by
  have hsplit : ∀ a, a ∈ seen ↔ a ∈ popped := fun a => (h.split a).trans (or_iff_left List.not_mem_nil)
  refine ⟨by simpa using h.once, hsplit, fun a => ⟨fun ha => h.reached a ((hsplit a).mpr ha), ?_⟩⟩
  rintro ⟨b, hb, hreach⟩
  induction hreach with
  | refl => exact (hsplit b).mp (h.seeded b hb)
  | tail _ hstep ih => exact (hsplit _).mp (h.closed _ ih _ hstep)

/-- A closed finite set that holds the seeds bounds how much is queued. -/
theorem Kept.length_le {nodes : Finset α} (hseeds : ∀ a ∈ seeds, a ∈ nodes)
    (hnext : ∀ a ∈ nodes, ∀ b ∈ next a, b ∈ nodes) {s : State α} (h : Kept next seeds popped s) :
    (popped ++ s.queue).length ≤ nodes.card := by
  classical
  rw [← List.toFinset_card_of_nodup h.once]
  apply Finset.card_le_card
  intro a ha
  obtain ⟨b, hb, hreach⟩ := h.reached a ((h.split a).mpr (List.mem_append.mp (List.mem_toFinset.mp ha)))
  clear ha
  induction hreach with
  | refl => exact hseeds b hb
  | tail _ hstep ih => exact hnext _ ih _ hstep

variable [Std.TransOrd α] [Std.LawfulEqOrd α]

/-- The elements that are new are appended to the queue, once each. -/
private theorem pushAll_spec (as : List α) (s : State α) :
    ∃ fresh, (s.pushAll as).queue = s.queue ++ fresh ∧ fresh.Nodup ∧
    (∀ a, a ∈ fresh ↔ a ∈ as ∧ a ∉ s.seen) ∧ ∀ a, a ∈ (s.pushAll as).seen ↔ a ∈ s.seen ∨ a ∈ as := by
  induction as generalizing s with
  | nil => exact ⟨[], (List.append_nil _).symm, List.nodup_nil, by simp, by simp [State.pushAll]⟩
  | cons x as ih =>
    have hseen : ∀ a, a ∈ (s.push x).seen ↔ a = x ∨ a ∈ s.seen := fun a => by
      rw [State.push, Std.TreeSet.mem_insert, Std.compare_eq_iff_eq, eq_comm]
    obtain ⟨fresh, hqueue, hnd, hmem, hall⟩ := ih (s.push x)
    have hall' : ∀ a, a ∈ (s.pushAll (x :: as)).seen ↔ a ∈ s.seen ∨ a ∈ x :: as := fun a => by
      refine (hall a).trans ?_
      rw [hseen, List.mem_cons]
      tauto
    by_cases hx : x ∈ s.seen
    · refine ⟨fresh, hqueue.trans (by rw [State.push, if_pos hx]), hnd, fun a => ?_, hall'⟩
      rw [hmem, hseen, List.mem_cons]
      constructor
      · exact fun ⟨ha, hno⟩ => ⟨.inr ha, fun h => hno (.inr h)⟩
      · rintro ⟨rfl | ha, hno⟩
        · exact absurd hx hno
        · exact ⟨ha, fun h => h.elim (fun heq => hno (heq ▸ hx)) hno⟩
    · refine ⟨x :: fresh, hqueue.trans ?_, List.nodup_cons.mpr ⟨fun h => ?_, hnd⟩, fun a => ?_, hall'⟩
      · rw [State.push, if_neg hx, List.append_assoc, List.singleton_append]
      · exact ((hmem x).mp h).2 ((hseen x).mpr (.inl rfl))
      · rw [List.mem_cons, hmem, hseen, List.mem_cons]
        constructor
        · rintro (rfl | ⟨ha, hno⟩)
          · exact ⟨.inl rfl, hx⟩
          · exact ⟨.inr ha, fun h => hno (.inr h)⟩
        · rintro ⟨ha, hno⟩
          by_cases heq : a = x
          · exact .inl heq
          · exact .inr ⟨ha.resolve_left heq, fun h => h.elim heq hno⟩

theorem Kept.start (next : α → List α) (seeds : List α) : Kept next seeds [] (State.pushAll {} seeds) := by
  obtain ⟨fresh, hqueue, hnd, hmem, hall⟩ := pushAll_spec seeds ({} : State α)
  have hseen : ∀ a, a ∈ (State.pushAll {} seeds).seen ↔ a ∈ seeds := fun a => by
    rw [hall]
    exact or_iff_right Std.TreeSet.not_mem_emptyc
  have hfresh : ∀ a, a ∈ fresh ↔ a ∈ seeds := fun a => by
    rw [hmem]
    exact and_iff_left Std.TreeSet.not_mem_emptyc
  refine ⟨fun a => ?_, ?_, fun a ha => (by cases ha), fun a ha => (hseen a).mpr ha, fun a ha => ?_⟩
  · rw [hseen, hqueue, List.nil_append, hfresh]
    exact ⟨.inr, fun h => h.resolve_left List.not_mem_nil⟩
  · rw [hqueue]
    exact hnd
  · exact ⟨a, (hseen a).mp ha, .refl⟩

private theorem Kept.pop {seen : TreeSet α} {a : α} {queue : List α} (h : Kept next seeds popped ⟨seen, a :: queue⟩) :
    Kept next seeds (popped ++ [a]) (State.pushAll ⟨seen, queue⟩ (next a)) := by
  obtain ⟨fresh, hqueue, hnd, hmem, hall⟩ := pushAll_spec (next a) ⟨seen, queue⟩
  have ha : a ∈ seen := (h.split a).mpr (.inr List.mem_cons_self)
  refine ⟨fun b => ?_, ?_, fun b hb c hc => ?_, fun b hb => ?_, fun b hb => ?_⟩
  · have hsplit := h.split b
    simp only [List.mem_cons] at hsplit
    simp only [hall, hqueue, List.mem_append, List.mem_singleton, hmem, hsplit]
    by_cases hb : b ∈ next a <;> by_cases hs : b ∈ seen <;> simp_all [or_assoc]
  · rw [hqueue, List.append_assoc, List.singleton_append, ← List.cons_append, ← List.append_assoc]
    refine List.nodup_append.mpr ⟨h.once, hnd, ?_⟩
    rintro b hb _ hf rfl
    exact ((hmem b).mp hf).2 ((h.split b).mpr (List.mem_append.mp hb))
  · rw [hall]
    rcases List.mem_append.mp hb with hb | hb
    · exact .inl (h.closed b hb c hc)
    · exact .inr (List.mem_singleton.mp hb ▸ hc)
  · exact (hall b).mpr (.inl (h.seeded b hb))
  · rcases (hall b).mp hb with hb | hb
    · exact h.reached b hb
    · obtain ⟨c, hc, hreach⟩ := h.reached a ha
      exact ⟨c, hc, hreach.tail hb⟩

/-- With a pop for each element of such a set the worklist runs empty. -/
theorem Kept.explore {nodes : Finset α} (hseeds : ∀ a ∈ seeds, a ∈ nodes)
    (hnext : ∀ a ∈ nodes, ∀ b ∈ next a, b ∈ nodes) {fuel : Nat} {s : State α} (h : Kept next seeds popped s)
    (hfuel : nodes.card ≤ fuel + popped.length) :
    ∃ rest seen, Exploration.explore next fuel s = some (rest, seen) ∧ Explored next seeds (popped ++ rest) seen := by
  have hlen := h.length_le hseeds hnext
  induction fuel generalizing popped s with
  | zero =>
    rcases s with ⟨seen, _ | ⟨a, queue⟩⟩
    · exact ⟨[], seen, rfl, by rw [List.append_nil]; exact h.finished⟩
    · simp only [List.length_append, List.length_cons] at hlen
      omega
  | succ fuel ih =>
    rcases s with ⟨seen, _ | ⟨a, queue⟩⟩
    · exact ⟨[], seen, rfl, by rw [List.append_nil]; exact h.finished⟩
    · have hfuel' : nodes.card ≤ fuel + (popped ++ [a]).length := by
        rw [List.length_append, List.length_singleton]
        omega
      obtain ⟨rest, seen', hrest, hdone⟩ := ih h.pop hfuel' (h.pop.length_le hseeds hnext)
      refine ⟨a :: rest, seen', by rw [Exploration.explore, hrest]; rfl, ?_⟩
      rwa [List.append_assoc, List.singleton_append] at hdone

/-- The worklist ends on every finite graph. -/
theorem explore_total {nodes : Finset α} (hseeds : ∀ a ∈ seeds, a ∈ nodes)
    (hnext : ∀ a ∈ nodes, ∀ b ∈ next a, b ∈ nodes) {fuel : Nat} (hfuel : nodes.card ≤ fuel) :
    ∃ popped seen, explore next fuel (State.pushAll {} seeds) = some (popped, seen) ∧ Explored next seeds popped seen :=
  (Kept.start next seeds).explore hseeds hnext hfuel

end Exploration
