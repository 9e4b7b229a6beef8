import Bdtrace.View.RebuildSearch
import Bdtrace.Web.QueryParams

/-! The rebuild request of the web server against the command line's. -/
namespace Bdtrace
open Std (TreeMap TreeSet)

/-- The loop that cuts at the commas and skips empty pieces. -/
def commaPieces (s : Str) : List Str := (s.splitOn ',').filter (· ≠ [])

/-- The changed files of `handle_rebuild_api`, or `none` for the answer 400. -/
def DependencyGraph.changedByQuery (g : DependencyGraph) (query : Str) : Option (TreeSet Str) :=
  let changed := getQueryParam query "changed".toList
  if changed = [] then none else some ((commaPieces changed).foldl g.addChanged ∅)

/-- A path as `--changed` takes it. -/
structure ChangedPath where
  text : Str
  nonempty : text ≠ []
  bytes : ∀ c ∈ text, 0 < c.toNat ∧ c.toNat < 256

/-- The paths joined with commas, encoded and put first in a query. -/
def rebuildQuery (e : PercentEncoding) (paths : List ChangedPath) (more : Option Str) : Str :=
  "changed".toList ++ '=' :: e.encode ([','].intercalate (paths.map (·.text))) ++ more.elim [] ('&' :: ·)

private theorem splitOn_intercalate_comma (args : List Str) (h : args ≠ []) :
    ([','].intercalate args).splitOn ',' = args.flatMap (·.splitOn ',') := by
  induction args with
  | nil => exact absurd rfl h
  | cons a args ih =>
    cases args with
    | nil => simp
    | cons b args =>
      rw [List.intercalate_cons_cons, List.append_assoc, List.singleton_append, List.splitOn_append_cons_self,
        ih (List.cons_ne_nil _ _)]
      rfl

private theorem commaPieces_join (args : List Str) (h : args ≠ []) :
    commaPieces ([','].intercalate args) = args.flatMap commaPieces := by
  rw [commaPieces, splitOn_intercalate_comma args h, List.filter_flatMap]
  rfl

private theorem commaPieces_of_no_comma {a : Str} (hne : a ≠ []) (h : ',' ∉ a) : commaPieces a = [a] := by
  rw [commaPieces, List.splitOn_eq_singleton h]
  simp [hne]

namespace DependencyGraph
variable (g : DependencyGraph)

/-- No recorded file tells a path with a comma from its pieces: one under such a path is under a piece
of some path, and one under a piece of such a path is under some path. -/
def CommasAgree (args : List Str) : Prop :=
  ∀ a ∈ args, ',' ∈ a → ∀ f ∈ g.fileToReaders,
    (Under a f → ∃ b ∈ args, ∃ piece ∈ commaPieces b, Under piece f) ∧
    (∀ piece ∈ commaPieces a, Under piece f → ∃ b ∈ args, Under b f)

/-- The files that a list of paths selects. -/
def Selected (args : List Str) (f : Str) : Prop := f ∈ g.fileToReaders ∧ ∃ a ∈ args, Under a f

/-- What the two rebuild commands owe each other: both select the files under the paths, and so find
the same processes. -/
def SameRebuild (e : PercentEncoding) (paths : List ChangedPath) (more : Option Str) : Prop :=
  (∀ f, f ∈ g.changedByArgs (paths.map (·.text)) ↔ g.Selected (paths.map (·.text)) f) ∧
  ∃ web, g.changedByQuery (rebuildQuery e paths more) = some web ∧
    (∀ f, f ∈ web ↔ g.Selected (paths.map (·.text)) f) ∧
    ∀ fuel, g.rebuildBfsReasons fuel web = g.rebuildBfsReasons fuel (g.changedByArgs (paths.map (·.text)))

section
variable {g}

private theorem selected_pieces {args : List Str} (hne : ∀ a ∈ args, a ≠ []) :
    (∀ f, g.Selected (args.flatMap commaPieces) f ↔ g.Selected args f) ↔ g.CommasAgree args := by
  constructor
  · intro h a ha hcomma f hf
    refine ⟨fun hu => ?_, fun piece hp hu => ?_⟩
    · obtain ⟨-, piece, hp, hup⟩ := (h f).mpr ⟨hf, a, ha, hu⟩
      obtain ⟨b, hb, hpb⟩ := List.mem_flatMap.mp hp
      exact ⟨b, hb, piece, hpb, hup⟩
    · exact ((h f).mp ⟨hf, piece, List.mem_flatMap.mpr ⟨a, ha, hp⟩, hu⟩).2
  · intro h f
    constructor
    · rintro ⟨hf, piece, hp, hu⟩
      obtain ⟨a, ha, hpa⟩ := List.mem_flatMap.mp hp
      by_cases hcomma : ',' ∈ a
      · exact ⟨hf, (h a ha hcomma f hf).2 piece hpa hu⟩
      · rw [commaPieces_of_no_comma (hne a ha) hcomma, List.mem_singleton] at hpa
        exact ⟨hf, a, ha, hpa ▸ hu⟩
    · rintro ⟨hf, a, ha, hu⟩
      by_cases hcomma : ',' ∈ a
      · obtain ⟨b, hb, piece, hp, hup⟩ := (h a ha hcomma f hf).1 hu
        exact ⟨hf, piece, List.mem_flatMap.mpr ⟨b, hb, hp⟩, hup⟩
      · refine ⟨hf, a, List.mem_flatMap.mpr ⟨a, ha, ?_⟩, hu⟩
        rw [commaPieces_of_no_comma (hne a ha) hcomma]
        exact List.mem_singleton_self a

private theorem joined_spec (paths : List ChangedPath) (hne : paths ≠ []) :
    [','].intercalate (paths.map (·.text)) ≠ [] ∧ ∀ c ∈ [','].intercalate (paths.map (·.text)), c.toNat < 256 := by
  induction paths with
  | nil => exact absurd rfl hne
  | cons p paths ih =>
    cases paths with
    | nil =>
      rw [List.map_singleton, List.intercalate_singleton]
      exact ⟨p.nonempty, fun c hc => (p.bytes c hc).2⟩
    | cons q paths =>
      rw [List.map_cons, List.map_cons, List.intercalate_cons_cons]
      refine ⟨by simp, fun c hc => ?_⟩
      rcases List.mem_append.mp hc with hc | hc
      · rcases List.mem_append.mp hc with hc | hc
        · exact (p.bytes c hc).2
        · rw [List.mem_singleton.mp hc]
          decide
      · exact (ih (List.cons_ne_nil _ _)).2 c hc

/-- The web server cuts the paths at their commas. -/
private theorem changedByQuery_eq (e : PercentEncoding) {paths : List ChangedPath} (hne : paths ≠ [])
    (more : Option Str) :
    g.changedByQuery (rebuildQuery e paths more) =
      some (((paths.map (·.text)).flatMap commaPieces).foldl g.addChanged ∅) := by
  have hargs : paths.map (·.text) ≠ [] := fun h => hne (List.map_eq_nil_iff.mp h)
  obtain ⟨hjoin, hbytes⟩ := joined_spec paths hne
  unfold changedByQuery rebuildQuery
  generalize "changed".toList = name
  simp only [getQueryParam_encode e name _ hbytes more, hjoin, if_false, commaPieces_join _ hargs]

/-- The two commands agree if and only if no recorded file tells a path with a comma from its pieces. -/
theorem sameRebuild_iff (e : PercentEncoding) (paths : List ChangedPath) (hne : paths ≠ []) (more : Option Str) :
    g.SameRebuild e paths more ↔ g.CommasAgree (paths.map (·.text)) := by
  have hcli := fun f => @mem_changedByArgs g (paths.map (·.text)) f
  have hweb : ∀ f, f ∈ ((paths.map (·.text)).flatMap commaPieces).foldl g.addChanged ∅ ↔
      g.Selected ((paths.map (·.text)).flatMap commaPieces) f := fun f => by
    simp [mem_foldl_addChanged, Selected]
  rw [← selected_pieces (by
    intro a ha
    obtain ⟨p, -, rfl⟩ := List.mem_map.mp ha
    exact p.nonempty)]
  constructor
  · rintro ⟨-, web, heq, hsel, -⟩ f
    rw [changedByQuery_eq e hne, Option.some.injEq] at heq
    rw [← hweb, heq, hsel]
  · intro h
    refine ⟨hcli, _, changedByQuery_eq e hne more, fun f => (hweb f).trans (h f), fun fuel => ?_⟩
    apply rebuildBfsReasons_congr
    exact fun f => ((hweb f).trans (h f)).trans (hcli f).symm

end

/-- A process reads `a,b`, and another one `d/f`. -/
private def commaTables : Tables :=
  { processes := [{ pid := 1 }, { pid := 2 }]
    files := [⟨1, ['a', ',', 'b']⟩, ⟨2, ['d', '/', 'f']⟩]
    fileAccesses := [⟨1, 1, 1, 0, 3, 0⟩, ⟨2, 2, 2, 0, 3, 0⟩] }

private def commaPath : ChangedPath where
  text := ['a', ',', 'b']
  nonempty := List.cons_ne_nil _ _
  bytes c hc := by
    simp only [List.mem_cons, List.not_mem_nil, or_false] at hc
    rcases hc with rfl | rfl | rfl <;> decide

private def dirPath : ChangedPath where
  text := ['d']
  nonempty := List.cons_ne_nil _ _
  bytes c hc := by
    obtain rfl := List.mem_singleton.mp hc
    decide

theorem directory_agrees : (buildDependencyGraph commaTables).SameRebuild encodeURIComponent [dirPath] none := by
  apply (sameRebuild_iff encodeURIComponent [dirPath] (by decide) none).mpr
  intro a ha hcomma
  rw [List.mem_singleton.mp ha] at hcomma
  exact absurd hcomma (by decide)

/-- The file `a,b` is named, but the web server looks for `a` and `b`. -/
theorem comma_cut : ¬ ∀ (g : DependencyGraph) (e : PercentEncoding) (paths : List ChangedPath), paths ≠ [] →
    ∀ more, g.SameRebuild e paths more := by
  intro h
  obtain ⟨-, web, heq, hsel, -⟩ :=
    h (buildDependencyGraph commaTables) encodeURIComponent [commaPath] (by decide) none
  rw [changedByQuery_eq encodeURIComponent (by decide), Option.some.injEq] at heq
  have hin : ['a', ',', 'b'] ∈ web := (hsel _).mpr ⟨by decide, _, List.mem_cons_self, .inl rfl⟩
  rw [← heq] at hin
  exact absurd hin (by decide)

end DependencyGraph
end Bdtrace
