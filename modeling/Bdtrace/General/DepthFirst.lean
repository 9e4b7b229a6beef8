import Mathlib.Data.List.Induction
import Mathlib.Data.List.Nodup

/-! Depth-first search with one global visited set and a depth bound: what it finds, and when a
node within the bound is not cut off by a longer path that was tried sooner. -/
namespace DepthFirst
variable {α : Type*} (next : α → List α)

def IsPath : α → List α → Prop
  | _, [] => True
  | a, x :: p => x ∈ next a ∧ IsPath x p

/-- Where a path ends that starts after `a`. -/
def target : α → List α → α
  | a, [] => a
  | _, x :: p => target x p

/-- The paths that the loop finds through the successor `x`. -/
def through (x : α) (sub : List (List α)) : List (List α) := [x] :: sub.map (x :: ·)

private theorem mem_through {x : α} {sub : List (List α)} {p : List α} :
    p ∈ through x sub ↔ ∃ q, p = x :: q ∧ (q = [] ∨ q ∈ sub) := by
  rw [through, List.mem_cons, List.mem_map]
  constructor
  · rintro (rfl | ⟨q, hq, rfl⟩)
    · exact ⟨[], rfl, .inl rfl⟩
    · exact ⟨q, rfl, .inr hq⟩
  · rintro ⟨q, rfl, rfl | hq⟩
    · exact .inl rfl
    · exact .inr ⟨q, hq, rfl⟩

/-- A path through `x` ends in the same node whatever stands before `x`. -/
theorem map_target_through (a x : α) (sub : List (List α)) :
    (through x sub).map (target x) = (through x sub).map (target a) := by
  apply List.map_congr_left
  intro p hp
  obtain ⟨q, rfl, -⟩ := mem_through.mp hp
  rfl

section
variable {next}

theorem target_append (a : α) (p q : List α) : target a (p ++ q) = target (target a p) q := by
  induction p generalizing a with
  | nil => rfl
  | cons x p ih => exact ih x

theorem isPath_append (a : α) (p q : List α) :
    IsPath next a (p ++ q) ↔ IsPath next a p ∧ IsPath next (target a p) q := by
  induction p generalizing a with
  | nil => exact (true_and _).symm ▸ Iff.rfl
  | cons x p ih => rw [List.cons_append, IsPath, ih, IsPath, target, and_assoc]

private theorem target_mem (a : α) (p : List α) : target a p ∈ a :: p := by
  induction p generalizing a with
  | nil => exact List.mem_cons_self
  | cons x p ih => exact List.mem_cons_of_mem _ (ih x)

end

variable [DecidableEq α]

/-- The loop over the successors of a node: a new one is marked and searched before the next. The
result lists the paths on which nodes are first met. -/
def loop (visit : α → List α → List (List α)) : List α → List α → List (List α)
  | [], _ => []
  | x :: xs, seen =>
    if x ∈ seen then loop visit xs seen
    else through x (visit x (x :: seen)) ++
      loop visit xs ((through x (visit x (x :: seen))).map (target x) ++ seen)

def search : Nat → α → List α → List (List α)
  | 0, _, _ => []
  | d + 1, a, seen => loop (search d) (next a) seen

/-- At the first node in which two paths differ, `p` takes the earlier successor. -/
def Sooner : α → List α → List α → Prop
  | a, x :: p, y :: q => (next a).idxOf x < (next a).idxOf y ∨ (x = y ∧ Sooner x p q)
  | _, _, _ => False

section
variable {next}

theorem Sooner.append {a : α} {p q : List α} (h : Sooner next a p q) (r s : List α) :
    Sooner next a (p ++ r) (q ++ s) := by
  induction p generalizing a q with
  | nil => exact absurd h (by simp [Sooner])
  | cons x p ih =>
    cases q with
    | nil => exact absurd h (by simp [Sooner])
    | cons y q => exact h.imp_right fun ⟨heq, h⟩ => ⟨heq, ih h⟩

theorem Sooner.trans {a : α} {p q r : List α} (h : Sooner next a p q) (h' : Sooner next a q r) : Sooner next a p r := by
  induction p generalizing a q r with
  | nil => exact absurd h (by simp [Sooner])
  | cons x p ih =>
    cases q with
    | nil => exact absurd h (by simp [Sooner])
    | cons y q =>
      cases r with
      | nil => exact absurd h' (by simp [Sooner])
      | cons z r =>
        rcases h with h | ⟨rfl, h⟩ <;> rcases h' with h' | ⟨rfl, h'⟩
        · exact .inl (Nat.lt_trans h h')
        · exact .inl h
        · exact .inl h'
        · exact .inr ⟨rfl, ih h h'⟩

/-- A shorter path either still differs or has been cut before the difference. -/
theorem Sooner.of_prefix {a : α} {p q r : List α} (h : Sooner next a p q) (hr : r <+: p) :
    Sooner next a r q ∨ r <+: q := by
  induction r generalizing a p q with
  | nil => exact .inr List.nil_prefix
  | cons x r ih =>
    obtain ⟨s, rfl⟩ := hr
    cases q with
    | nil => exact absurd h (by simp [Sooner])
    | cons y q =>
      rcases h with h | ⟨rfl, h⟩
      · exact .inl (.inl h)
      · rcases ih h (List.prefix_append r s) with h | h
        · exact .inl (.inr ⟨rfl, h⟩)
        · exact .inr (List.cons_prefix_cons.mpr ⟨rfl, h⟩)

end

/-- `q` is `p`, or was tried sooner. -/
def NoLater (a : α) (q p : List α) : Prop := q = p ∨ Sooner next a q p

/-- The paths of at most `d` steps below `a` on which nodes outside `seen` are met first. -/
structure Found (d : Nat) (a : α) (seen : List α) (paths : List (List α)) : Prop where
  path : ∀ p ∈ paths, IsPath next a p ∧ p ≠ [] ∧ p.length ≤ d
  fresh : ∀ p ∈ paths, p.Nodup ∧ ∀ x ∈ p, x ∉ seen
  once : (paths.map (target a)).Nodup
  /-- The successors of a node met below the bound are met no later than through it. -/
  expanded : ∀ p ∈ paths, p.length < d → ∀ y ∈ next (target a p), y ∈ seen ∨
    ∃ q ∈ paths, target a q = y ∧ (NoLater next a q (p ++ [y]) ∨ q <+: p)

/-- The same of the successors of `a` itself. -/
def Rooted (a : α) (seen : List α) (paths : List (List α)) : Prop :=
  ∀ y ∈ next a, y ∈ seen ∨ ∃ q ∈ paths, target a q = y ∧ NoLater next a q [y]

section
variable {next} {d : Nat} {a x : α} {seen : List α} {sub found rest : List (List α)}

theorem Found.target_fresh (h : Found next d a seen found) {p : List α} (hp : p ∈ found) : target a p ∉ seen := by
  cases p with
  | nil => exact absurd rfl (h.path _ hp).2.1
  | cons z p => exact (h.fresh _ hp).2 _ (target_mem z p)

theorem Found.through (h : Found next d x (x :: seen) sub) (hroot : 0 < d → Rooted next x (x :: seen) sub)
    (hx : x ∉ seen) (hnext : x ∈ next a) : Found next (d + 1) a seen (through x sub) := by
  refine ⟨fun p hp => ?_, fun p hp => ?_, ?_, fun p hp hlen y hy => ?_⟩
  · obtain ⟨q, rfl, rfl | hq⟩ := mem_through.mp hp
    · exact ⟨⟨hnext, trivial⟩, List.cons_ne_nil _ _, by simp⟩
    · obtain ⟨hpath, -, hlen⟩ := h.path q hq
      exact ⟨⟨hnext, hpath⟩, List.cons_ne_nil _ _, Nat.succ_le_succ hlen⟩
  · obtain ⟨q, rfl, rfl | hq⟩ := mem_through.mp hp
    · exact ⟨List.nodup_singleton x, fun z hz => List.mem_singleton.mp hz ▸ hx⟩
    · obtain ⟨hnd, hseen⟩ := h.fresh q hq
      refine ⟨List.nodup_cons.mpr ⟨fun hxq => hseen x hxq List.mem_cons_self, hnd⟩, fun z hz hzs => ?_⟩
      rcases List.mem_cons.mp hz with rfl | hz
      · exact hx hzs
      · exact hseen z hz (List.mem_cons_of_mem _ hzs)
  · rw [DepthFirst.through, List.map_cons, List.map_map, List.nodup_cons]
    refine ⟨fun hxm => ?_, h.once⟩
    obtain ⟨q, hq, hqx⟩ := List.mem_map.mp hxm
    have hqx : target x q = x := hqx
    exact h.target_fresh hq (hqx.symm ▸ List.mem_cons_self)
  · obtain ⟨q, rfl, hq⟩ := mem_through.mp hp
    have hstep : y ∈ x :: seen ∨ ∃ r ∈ sub, target x r = y ∧ (NoLater next x r (q ++ [y]) ∨ r <+: q) := by
      rcases hq with rfl | hq
      · exact (hroot (Nat.lt_of_succ_lt_succ hlen) y hy).imp_right fun ⟨r, hr, hry, hcmp⟩ => ⟨r, hr, hry, .inl hcmp⟩
      · exact h.expanded q hq (Nat.lt_of_succ_lt_succ hlen) y hy
    rcases hstep with hs | ⟨r, hr, rfl, hcmp⟩
    · rcases List.mem_cons.mp hs with rfl | hs
      · exact .inr ⟨[y], mem_through.mpr ⟨[], rfl, .inl rfl⟩, rfl,
          .inr (List.cons_prefix_cons.mpr ⟨rfl, List.nil_prefix⟩)⟩
      · exact .inl hs
    · refine .inr ⟨x :: r, mem_through.mpr ⟨r, rfl, .inr hr⟩, rfl, ?_⟩
      rcases hcmp with (hreq | hlt) | hpre
      · exact .inl (.inl (congrArg (x :: ·) hreq))
      · exact .inl (.inr (.inr ⟨rfl, hlt⟩))
      · exact .inr (List.cons_prefix_cons.mpr ⟨rfl, hpre⟩)

/-- What is found later, with the earlier finds marked, is added to them. -/
theorem Found.append (h : Found next d a seen found) (h' : Found next d a (found.map (target a) ++ seen) rest)
    (hsooner : ∀ q ∈ found, ∀ p ∈ rest, ∀ s, Sooner next a q (p ++ s)) : Found next d a seen (found ++ rest) := by
  refine ⟨fun p hp => ?_, fun p hp => ?_, ?_, fun p hp hlen y hy => ?_⟩
  · exact (List.mem_append.mp hp).elim (h.path p) (h'.path p)
  · rcases List.mem_append.mp hp with hp | hp
    · exact h.fresh p hp
    · exact ⟨(h'.fresh p hp).1, fun z hz hzs => (h'.fresh p hp).2 z hz (List.mem_append_right _ hzs)⟩
  · rw [List.map_append, List.nodup_append']
    refine ⟨h.once, h'.once, fun z hz hz' => ?_⟩
    obtain ⟨p, hp, rfl⟩ := List.mem_map.mp hz'
    exact h'.target_fresh hp (List.mem_append_left _ hz)
  · rcases List.mem_append.mp hp with hp | hp
    · exact (h.expanded p hp hlen y hy).imp_right fun ⟨q, hq, hqy⟩ => ⟨q, List.mem_append_left _ hq, hqy⟩
    · rcases h'.expanded p hp hlen y hy with hs | ⟨q, hq, hqy⟩
      · rcases List.mem_append.mp hs with hs | hs
        · obtain ⟨q, hq, rfl⟩ := List.mem_map.mp hs
          exact .inr ⟨q, List.mem_append_left _ hq, rfl, .inl (.inr (hsooner q hq p hp [target a q]))⟩
        · exact .inl hs
      · exact .inr ⟨q, List.mem_append_right _ hq, hqy⟩

private theorem idxOf_lt {done rest : List α} {x z : α} (hx : x ∉ done) (hz : z ∉ done) (hne : z ≠ x) :
    (done ++ x :: rest).idxOf x < (done ++ x :: rest).idxOf z := by
  rw [List.idxOf_append_of_notMem hx, List.idxOf_append_of_notMem hz, List.idxOf_cons_self,
    List.idxOf_cons_ne _ (Ne.symm hne)]
  omega

private theorem found_loop {visit : α → List α → List (List α)}
    (hvisit : ∀ a seen, Found next d a seen (visit a seen) ∧ (0 < d → Rooted next a seen (visit a seen)))
    (xs : List α) {done : List α} (hnext : next a = done ++ xs) (hdone : ∀ x ∈ done, x ∈ seen) :
    Found next (d + 1) a seen (loop visit xs seen) ∧ Rooted next a seen (loop visit xs seen) := by
  induction xs generalizing done seen with
  | nil =>
    refine ⟨⟨fun _ hp => (by cases hp), fun _ hp => (by cases hp), List.nodup_nil, fun _ hp => (by cases hp)⟩,
      fun y hy => ?_⟩
    rw [hnext, List.append_nil] at hy
    exact .inl (hdone y hy)
  | cons x xs ih =>
    have hnext' : next a = (done ++ [x]) ++ xs := by rw [hnext, List.append_assoc, List.singleton_append]
    rw [loop]
    split
    case isTrue hx =>
      apply ih hnext'
      intro y hy
      exact (List.mem_append.mp hy).elim (hdone y) fun hy => List.mem_singleton.mp hy ▸ hx
    case isFalse hx =>
      have hthrough := (hvisit x (x :: seen)).1.through (hvisit x (x :: seen)).2 hx (by simp [hnext] : x ∈ next a)
      generalize visit x (x :: seen) = sub at hthrough
      have hfirst : x ∈ (through x sub).map (target a) :=
        List.mem_map.mpr ⟨[x], mem_through.mpr ⟨[], rfl, .inl rfl⟩, rfl⟩
      obtain ⟨hrest, hroot⟩ := @ih ((through x sub).map (target a) ++ seen) (done ++ [x]) hnext' (by
        intro y hy
        rcases List.mem_append.mp hy with hy | hy
        · exact List.mem_append_right _ (hdone y hy)
        · exact List.mem_append_left _ (List.mem_singleton.mp hy ▸ hfirst))
      -- the later successors stand behind `x`
      have hbehind : ∀ z, z ∉ seen → z ≠ x → (next a).idxOf x < (next a).idxOf z := fun z hz hne => by
        rw [hnext]
        exact idxOf_lt (fun h => hx (hdone x h)) (fun h => hz (hdone z h)) hne
      rw [map_target_through a]
      refine ⟨hthrough.append hrest fun q hq p hp s => ?_, fun y hy => ?_⟩
      · obtain ⟨q, rfl, -⟩ := mem_through.mp hq
        obtain ⟨-, hne, -⟩ := hrest.path p hp
        obtain ⟨z, p, rfl⟩ := List.exists_cons_of_ne_nil hne
        have hz := (hrest.fresh _ hp).2 z List.mem_cons_self
        rw [List.mem_append, not_or] at hz
        exact .inl (hbehind z hz.2 fun h => hz.1 (h ▸ hfirst))
      · rcases hroot y hy with hs | ⟨q, hq, hqy⟩
        · rcases List.mem_append.mp hs with hs | hs
          · obtain ⟨q, hq, rfl⟩ := List.mem_map.mp hs
            refine .inr ⟨q, List.mem_append_left _ hq, rfl, ?_⟩
            have hfresh := hthrough.target_fresh hq
            obtain ⟨q, rfl, -⟩ := mem_through.mp hq
            by_cases hqx : target a (x :: q) = x
            · cases q with
              | nil => exact .inl rfl
              | cons z q =>
                have hnd := (List.nodup_cons.mp (hthrough.fresh _ hq).1).1
                exact absurd (target_mem z q) (by rwa [← hqx] at hnd)
            · exact .inr (.inl (hbehind _ hfresh hqx))
          · exact .inl hs
        · exact .inr ⟨q, List.mem_append_right _ hq, hqy⟩

variable (next) in
theorem found_search (d : Nat) (a : α) (seen : List α) :
    Found next d a seen (search next d a seen) ∧ (0 < d → Rooted next a seen (search next d a seen)) := by
  induction d generalizing a seen with
  | zero =>
    exact ⟨⟨fun _ hp => (by cases hp), fun _ hp => (by cases hp), List.nodup_nil, fun _ hp => (by cases hp)⟩,
      fun h => absurd h (by omega)⟩
  | succ d ih =>
    obtain ⟨hfound, hroot⟩ := @found_loop α next _ d a seen _ ih (next a) [] rfl (fun _ hx => by cases hx)
    exact ⟨hfound, fun _ => hroot⟩

/-- No path of exactly `d` steps to a node of `p` before its last one is tried sooner. -/
def Clear (next : α → List α) (d : Nat) (a : α) (p : List α) : Prop :=
  ∀ q x, q ++ [x] <+: p → ∀ r, IsPath next a r → r.length = d → (a :: r).Nodup → target a r = target a q →
    ¬ Sooner next a r q

theorem Clear.of_prefix {d : Nat} {a : α} {p q : List α} (h : Clear next d a p) (hq : q <+: p) : Clear next d a q :=
  fun r x hr => h r x (hr.trans hq)

/-- A node at the end of a clear path is found. -/
theorem search_complete {d : Nat} {a : α} {p : List α} (hpath : IsPath next a p) (hlen : p.length ≤ d)
    (hnd : (a :: p).Nodup) (hclear : Clear next d a p) :
    p = [] ∨ ∃ q ∈ search next d a [a], target a q = target a p := by
  obtain ⟨hfound, hroot⟩ := found_search next d a [a]
  suffices h : ∀ q, q <+: p → q = [] ∨ ∃ r ∈ search next d a [a], target a r = target a q ∧ NoLater next a r q from
    (h p (List.prefix_refl p)).imp_right fun ⟨r, hr, heq, _⟩ => ⟨r, hr, heq⟩
  intro q
  induction q using List.reverseRecOn with
  | nil => exact fun _ => .inl rfl
  | append_singleton q x ih =>
    intro hq
    have hqp : q <+: p := (List.prefix_append q [x]).trans hq
    have hndq : (a :: (q ++ [x])).Nodup := hnd.sublist (List.Sublist.cons_cons a hq.sublist)
    have hxa : x ≠ a := by
      rintro rfl
      exact (List.nodup_cons.mp hndq).1 (by simp)
    have hxq : x ∉ q := by
      have h := (List.nodup_append.mp (List.nodup_cons.mp hndq).2).2.2
      exact fun hx => h x hx x (by simp) rfl
    obtain ⟨hstep, -⟩ : x ∈ next (target a q) ∧ True := by
      obtain ⟨s, rfl⟩ := hq
      have h := (isPath_append a (q ++ [x]) s).mp hpath
      exact ((isPath_append a q [x]).mp h.1).2
    have hqlt : q.length < d := by
      have h := hq.length_le
      rw [List.length_append, List.length_singleton] at h
      omega
    refine .inr ?_
    rcases ih hqp with rfl | ⟨r, hr, hrq, hcmp⟩
    · rcases hroot (by omega) x hstep with hs | h
      · exact absurd (List.mem_singleton.mp hs) hxa
      · exact h
    · obtain ⟨hrpath, -, hrlen⟩ := hfound.path r hr
      have hrnd : (a :: r).Nodup :=
        List.nodup_cons.mpr ⟨fun h => (hfound.fresh r hr).2 a h List.mem_cons_self, (hfound.fresh r hr).1⟩
      have hrlt : r.length < d := by
        rcases hcmp with rfl | hlt
        · exact hqlt
        · rcases Nat.lt_or_eq_of_le hrlen with h | h
          · exact h
          · exact absurd hlt (hclear q x hq r hrpath h hrnd hrq)
      rcases hfound.expanded r hr hrlt x (hrq ▸ hstep) with hs | ⟨s, hs, hsx, hscmp⟩
      · exact absurd (List.mem_singleton.mp hs) hxa
      · refine ⟨s, hs, by rw [hsx, target_append]; rfl, ?_⟩
        have hxs : x ∈ s := by
          obtain ⟨z, s, rfl⟩ := List.exists_cons_of_ne_nil (hfound.path s hs).2.1
          exact hsx ▸ target_mem z s
        rcases hcmp with rfl | hlt
        · rcases hscmp with h | hpre
          · exact h
          · exact absurd (hpre.subset hxs) hxq
        · rcases hscmp with (rfl | h) | hpre
          · exact .inr (hlt.append [x] [x])
          · exact .inr (h.trans (hlt.append [x] [x]))
          · rcases hlt.of_prefix hpre with h | h
            · have h' := h.append [] [x]
              rw [List.append_nil] at h'
              exact .inr h'
            · exact absurd (h.subset hxs) hxq

end
end DepthFirst
