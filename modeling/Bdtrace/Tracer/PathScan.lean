import Bdtrace.General.Cancellation
import Bdtrace.Tracer.SyscallStops

/-! Pieces of a path between slashes, and the scan of `normalize_path` over them. -/
namespace Bdtrace

def rooted (path : Str) : Bool := path.head? == some '/'

def dotDot : Str := ['.', '.']

/-- What stands between the slashes, without `.` and nothing. -/
def pathComponents (path : Str) : List Str := (path.splitOn '/').filter fun comp => comp ≠ [] ∧ comp ≠ ['.']

/-- The components with every `..` worked off, from the left. -/
def reducedComponents (path : Str) : List Str := Cancel.reduce dotDot (rooted path) (pathComponents path)

theorem normalizePath_fast {path : Str} (h : needsNormalize true path = false) : normalizePath path = path := by
  simp only [normalizePath, h, Bool.false_eq_true, if_false]

theorem normalizePath_slow {path : Str} (h : needsNormalize true path = true) :
    normalizePath path = splitAndRejoin path := by
  simp only [normalizePath, h, if_true]

/-! ### Pieces between slashes -/

theorem slash_notMem_splitOn {path : Str} : ∀ comp ∈ path.splitOn '/', '/' ∉ comp := by
  induction path with
  | nil => simp
  | cons c path ih =>
    rw [List.splitOn_cons_eq_if_modifyHead]
    split
    · exact List.forall_mem_cons.mpr ⟨List.not_mem_nil, ih⟩
    · rename_i hc
      cases hpieces : path.splitOn '/' with
      | nil => exact absurd hpieces (List.splitOn_ne_nil _ _)
      | cons first rest =>
        rw [hpieces, List.forall_mem_cons] at ih
        refine List.forall_mem_cons.mpr ⟨?_, ih.2⟩
        rw [List.mem_cons, not_or]
        exact ⟨fun h => hc (beq_iff_eq.mpr h.symm), ih.1⟩

theorem intercalate_concat {pieces : List Str} (h : pieces ≠ []) (last : Str) :
    ['/'].intercalate (pieces ++ [last]) = ['/'].intercalate pieces ++ '/' :: last := by
  induction pieces with
  | nil => exact absurd rfl h
  | cons a pieces ih =>
    cases pieces with
    | nil => simp
    | cons b pieces =>
      rw [List.intercalate_cons_cons, List.cons_append, List.cons_append, List.intercalate_cons_cons,
        ← List.cons_append, ih (List.cons_ne_nil _ _)]
      simp only [List.append_assoc]

/-! ### The scan -/

private theorem needsNormalize_other {c : Char} (hslash : c ≠ '/') (hdot : c ≠ '.') (atStart : Bool) (rest : Str) :
    needsNormalize atStart (c :: rest) = needsNormalize false rest := by
  rw [needsNormalize]
  · exact hdot
  · exact hslash

private theorem needsNormalize_inside {comp : Str} (h : '/' ∉ comp) (rest : Str) :
    needsNormalize false (comp ++ rest) = needsNormalize false rest := by
  induction comp with
  | nil => rfl
  | cons c comp ih =>
    rw [List.mem_cons, not_or] at h
    rw [← ih h.2, List.cons_append]
    by_cases hdot : c = '.'
    · subst hdot
      rfl
    · exact needsNormalize_other (Ne.symm h.1) hdot false _

/-- A component is looked at as a whole. -/
private theorem needsNormalize_component {comp : Str} (h : '/' ∉ comp) {rest : Str}
    (hrest : rest = [] ∨ rooted rest = true) :
    needsNormalize true (comp ++ rest) = (decide (comp = ['.'] ∨ comp = dotDot) || needsNormalize false rest) := by
  have hslash : rest = [] ∨ ∃ tail, rest = '/' :: tail := hrest.imp_right fun hr => by
    cases rest with
    | nil => cases hr
    | cons c tail => exact ⟨tail, by simpa [rooted] using hr⟩
  match comp, h with
  | [], _ =>
    rcases hslash with rfl | ⟨tail, rfl⟩
    all_goals rfl
  | [c], h =>
    rw [List.mem_singleton] at h
    by_cases hdot : c = '.'
    · subst hdot
      rcases hslash with rfl | ⟨tail, rfl⟩
      all_goals rfl
    · rw [List.singleton_append, needsNormalize_other (Ne.symm h) hdot]
      simp [hdot, dotDot]
  | c :: d :: comp, h =>
    simp only [List.mem_cons, not_or] at h
    obtain ⟨hc, hd, hcomp⟩ := h
    have hinside := @needsNormalize_inside (d :: comp) (by simp [hd, hcomp]) rest
    rw [← hinside, List.cons_append, List.cons_append]
    by_cases hdot : c = '.'
    · subst hdot
      by_cases hdot' : d = '.'
      · subst hdot'
        cases comp with
        | nil =>
          rcases hslash with rfl | ⟨tail, rfl⟩
          all_goals rfl
        | cons e comp =>
          rw [List.mem_cons, not_or] at hcomp
          rw [List.cons_append, needsNormalize]
          · simp [dotDot]
          all_goals simp [Ne.symm hcomp.1]
      · rw [needsNormalize]
        · simp [hdot', dotDot]
        all_goals simp [Ne.symm hd, hdot']
    · rw [needsNormalize_other (Ne.symm hc) hdot]
      simp [hdot, dotDot]

/-- No component but the first and the last is empty, and none is `.` or `..`. -/
@[mk_iff]
structure Plain (pieces : List Str) : Prop where
  dots : ∀ comp ∈ pieces, comp ≠ ['.'] ∧ comp ≠ dotDot
  inner : [] ∉ pieces.tail.dropLast

private theorem needsNormalize_intercalate {pieces : List Str} (hne : pieces ≠ []) (h : ∀ comp ∈ pieces, '/' ∉ comp) :
    needsNormalize true (['/'].intercalate pieces) = false ↔ Plain pieces := by
  induction pieces with
  | nil => exact absurd rfl hne
  | cons a pieces ih =>
    obtain ⟨ha, hpieces⟩ := List.forall_mem_cons.mp h
    cases pieces with
    | nil =>
      have hscan := needsNormalize_component ha (.inl rfl)
      rw [List.append_nil] at hscan
      rw [List.intercalate_singleton, hscan]
      simp [needsNormalize, plain_iff]
    | cons b pieces =>
      have hscan := @needsNormalize_component a ha ('/' :: ['/'].intercalate (b :: pieces)) (.inr rfl)
      have hslash : needsNormalize false ('/' :: ['/'].intercalate (b :: pieces)) =
          ((['/'].intercalate (b :: pieces)).head? == some '/' ||
            needsNormalize true (['/'].intercalate (b :: pieces))) := rfl
      have hb : '/' ∉ b := hpieces b List.mem_cons_self
      have hhead : ((['/'].intercalate (b :: pieces)).head? == some '/') = false ↔ b ≠ [] ∨ pieces = [] := by
        cases b with
        | nil => cases pieces <;> simp
        | cons c b =>
          rw [List.mem_cons, not_or] at hb
          simp [Ne.symm hb.1]
      rw [List.intercalate_cons_cons, List.append_assoc, List.singleton_append, hscan, hslash, Bool.or_eq_false_iff,
        Bool.or_eq_false_iff, ih (List.cons_ne_nil _ _) hpieces, hhead, plain_iff, plain_iff, List.forall_mem_cons]
      cases pieces with
      | nil => simp
      | cons c pieces =>
        simp
        tauto

theorem needsNormalize_eq_false_iff (path : Str) : needsNormalize true path = false ↔ Plain (path.splitOn '/') := by
  rw [← needsNormalize_intercalate (List.splitOn_ne_nil _ _) slash_notMem_splitOn, List.intercalate_splitOn]

end Bdtrace
