import Bdtrace.General.Tries
import Bdtrace.General.Utf8
import Bdtrace.Web.PathParts

/-! The tree that the browser draws from the listing of all files. A string of the browser is here the bytes of its
UTF-8 encoding. -/
namespace Bdtrace
open Tries (Forest)
open Words (words)

/-- The names that every object of the browser has a property for. -/
def inherited : List Str :=
  ["constructor", "hasOwnProperty", "isPrototypeOf", "propertyIsEnumerable", "toLocaleString", "toString", "valueOf",
    "__defineGetter__", "__defineSetter__", "__lookupGetter__", "__lookupSetter__", "__proto__"].map String.toList

/-- The loop over the parts of a path. What is found under an inherited name has no children: going on there fails. -/
def addParts : List Str → Nat → Forest Str Nat → Option (Forest Str Nat)
  | [], _, node => some node
  | part :: parts, count, node =>
    if inherited.contains part then (if parts = [] then some node else none)
    else
      let entry := (node.lookup part).getD (0, .nil)
      (addParts parts count entry.2).map (node.set part (entry.1 + count))

/-- `absTree` and `relTree` after the last file. -/
def addFiles (data : List FileStatRow) : Option (Forest Str Nat × Forest Str Nat) :=
  data.foldlM (fun trees file =>
    let parts := words '/' file.filename
    if rooted file.filename then (addParts parts file.accessCount trees.1).map (·, trees.2)
    else (addParts parts file.accessCount trees.2).map (trees.1, ·)) (.nil, .nil)

/-- `tree`, with all absolute paths below one root. -/
def joinTrees (absTree relTree : Forest Str Nat) : Forest Str Nat :=
  if absTree ≠ .nil then .cons ['/'] (Tries.total absTree) absTree relTree else relTree

structure FileNode where
  name : Str
  fullPath : Str
  count : Nat
  hasChildren : Bool
  depth : Nat
  deriving DecidableEq, Repr

/-- The rows of `buildFileTree` with all of them expanded, for siblings in the order given. -/
def buildFileTree : Forest Str Nat → Str → Nat → List FileNode
  | .nil, _, _ => []
  | .cons name count children rest, pfx, depth =>
    let fullPath := fullPathOf pfx name
    ⟨name, fullPath, count, children ≠ .nil, depth⟩ ::
      (buildFileTree children (if name = ['/'] then ['/'] else fullPath) (depth + 1) ++ buildFileTree rest pfx depth)

/-- `renderFiles`; `none` when building the tree fails, where the page says that it could not read the answer. -/
def Tables.renderFiles (t : Tables) : Option (List FileNode) :=
  let data := (t.handleFiles []).files.map fun file => { file with filename := Utf8.decoded file.filename }
  (addFiles data).map fun trees => buildFileTree ((joinTrees trees.1 trees.2).sorted Utf8.utf16Before) [] 0

/-! ### Building the tree -/

/-- A part that is not the last has an inherited name. -/
def BreaksTree (path : Str) : Prop :=
  ∃ before name after, words '/' path = before ++ name :: after ∧ name ∈ inherited ∧ after ≠ []

private theorem addParts_eq {parts : List Str} (h : ∀ name ∈ parts, name ∉ inherited) (count : Nat)
    (node : Forest Str Nat) :
    addParts parts count node = some (Tries.add parts count node) := by
  induction parts generalizing node with
  | nil => rfl
  | cons part parts ih =>
    rw [addParts, if_neg (mt List.contains_iff_mem.mp (h part List.mem_cons_self))]
    simp only [ih fun name hname => h name (List.mem_cons_of_mem _ hname), Option.map_some, Tries.add]

private theorem addParts_eq_none {parts : List Str} {count : Nat} {node : Forest Str Nat} :
    addParts parts count node = none ↔
    ∃ before name after, parts = before ++ name :: after ∧ name ∈ inherited ∧ after ≠ [] := by
  induction parts generalizing node with
  | nil => exact iff_of_false nofun fun ⟨_, _, _, h, _⟩ => List.cons_ne_nil _ _ (List.append_eq_nil_iff.mp h.symm).2
  | cons part parts ih =>
    rw [addParts]
    by_cases hpart : part ∈ inherited
    · rw [if_pos (List.contains_iff_mem.mpr hpart)]
      by_cases hlast : parts = []
      · rw [if_pos hlast, hlast]
        refine iff_of_false nofun ?_
        rintro ⟨before, name, after, heq, -, hafter⟩
        have hlen := congrArg List.length heq
        have hpos := List.length_pos_iff.mpr hafter
        simp only [List.length_append, List.length_cons, List.length_nil] at hlen
        omega
      · rw [if_neg hlast]
        exact iff_of_true rfl ⟨[], part, parts, rfl, hpart, hlast⟩
    · rw [if_neg (mt List.contains_iff_mem.mp hpart), Option.map_eq_none_iff, ih]
      constructor
      · rintro ⟨before, name, after, heq, hrest⟩
        exact ⟨part :: before, name, after, by rw [heq]; rfl, hrest⟩
      · rintro ⟨before, name, after, heq, hname, hafter⟩
        cases before with
        | nil => exact absurd ((List.cons.inj heq).1 ▸ hname) hpart
        | cons first before => exact ⟨before, name, after, (List.cons.inj heq).2, hname, hafter⟩

/-- The sequences that are added to one of the two trees. -/
def itemsOf (absolute : Bool) (data : List FileStatRow) : List (List Str × Nat) :=
  (data.filter fun file => rooted file.filename = absolute).map fun file => (words '/' file.filename, file.accessCount)

theorem addFiles_eq {data : List FileStatRow} (h : ∀ file ∈ data, ∀ name ∈ words '/' file.filename, name ∉ inherited) :
    addFiles data = some (Tries.addAll (itemsOf true data), Tries.addAll (itemsOf false data)) := by
  rw [addFiles, Tries.addAll, Tries.addAll]
  generalize (.nil : Forest Str Nat) = absTree
  suffices hall : ∀ relTree : Forest Str Nat, data.foldlM (fun trees file =>
      if rooted file.filename then (addParts (words '/' file.filename) file.accessCount trees.1).map (·, trees.2)
      else (addParts (words '/' file.filename) file.accessCount trees.2).map (trees.1, ·)) (absTree, relTree) =
      some ((itemsOf true data).foldl (fun f item => Tries.add item.1 item.2 f) absTree,
        (itemsOf false data).foldl (fun f item => Tries.add item.1 item.2 f) relTree) from hall absTree
  intro relTree
  induction data generalizing absTree relTree with
  | nil => rfl
  | cons file data ih =>
    have hfile := h file List.mem_cons_self
    have hrest := fun absTree relTree => ih (fun file hin => h file (List.mem_cons_of_mem _ hin)) absTree relTree
    rw [List.foldlM_cons]
    cases hroot : rooted file.filename with
    | true => simp [addParts_eq hfile, hrest, itemsOf, hroot]
    | false => simp [addParts_eq hfile, hrest, itemsOf, hroot]

theorem addFiles_eq_none {data : List FileStatRow} :
    addFiles data = none ↔ ∃ file ∈ data, BreaksTree file.filename := by
  rw [addFiles]
  generalize ((.nil, .nil) : Forest Str Nat × Forest Str Nat) = trees
  induction data generalizing trees with
  | nil => exact iff_of_false nofun nofun
  | cons file data ih =>
    rw [List.foldlM_cons, List.exists_mem_cons_iff, BreaksTree]
    have hfails : ∀ node, addParts (words '/' file.filename) file.accessCount node = none ↔
        ∃ before name after, words '/' file.filename = before ++ name :: after ∧ name ∈ inherited ∧ after ≠ [] :=
      fun node => addParts_eq_none
    cases hroot : rooted file.filename with
    | true =>
      simp only [if_true]
      cases hadd : addParts (words '/' file.filename) file.accessCount trees.1 with
      | none => exact iff_of_true rfl (.inl ((hfails trees.1).mp hadd))
      | some node =>
        rw [or_iff_right fun hbreaks => Option.some_ne_none node (hadd.symm.trans ((hfails trees.1).mpr hbreaks))]
        exact ih _
    | false =>
      simp only [Bool.false_eq_true, if_false]
      cases hadd : addParts (words '/' file.filename) file.accessCount trees.2 with
      | none => exact iff_of_true rfl (.inl ((hfails trees.2).mp hadd))
      | some node =>
        rw [or_iff_right fun hbreaks => Option.some_ne_none node (hadd.symm.trans ((hfails trees.2).mpr hbreaks))]
        exact ih _

/-! ### The rows -/

private theorem buildFileTree_insertSorted (before : Str → Str → Bool) (f : Forest Str Nat) (name : Str) (count : Nat)
    (children : Forest Str Nat) (pfx : Str) (depth : Nat) :
    (buildFileTree (f.insertSorted before name count children) pfx depth).Perm
      (buildFileTree (.cons name count children f) pfx depth) := by
  induction f with
  | nil => rfl
  | cons name' count' children' rest ihc ih =>
    rw [Forest.insertSorted]
    split
    · simp only [buildFileTree, ← List.cons_append] at ih ⊢
      exact (ih.append_left _).trans (List.perm_append_comm_assoc _ _ _)
    · rfl

/-- The rows are the same in any order of the siblings. -/
private theorem buildFileTree_sorted (before : Str → Str → Bool) (f : Forest Str Nat) (pfx : Str) (depth : Nat) :
    (buildFileTree (f.sorted before) pfx depth).Perm (buildFileTree f pfx depth) := by
  induction f generalizing pfx depth with
  | nil => rfl
  | cons name count children rest ihc ih =>
    refine (buildFileTree_insertSorted _ _ _ _ _ _ _).trans ?_
    simp only [buildFileTree, ne_eq, Tries.sorted_eq_nil]
    exact ((ihc _ _).append (ih _ _)).cons _

/-- The path, the number and the depth of a row, the depth counted from one. -/
def FileNode.shown (n : FileNode) : Str × Nat × Nat := (n.fullPath, n.count, n.depth + 1)

/-- The row at the end of a sequence of names. -/
def shownAt (absolute : Bool) (parts : List Str) (depth : Nat) (e : List Str × Nat) : Str × Nat × Nat :=
  (pathText absolute (parts ++ e.1), e.2, depth + e.1.length)

private theorem shown_buildFileTree {absolute : Bool} {parts : List Str} (hparts : ∀ name ∈ parts, IsName name)
    {f : Forest Str Nat}
    (hf : ∀ e ∈ f.entries, ∀ name ∈ e.1, IsName name) (depth : Nat) :
    (buildFileTree f (pathText absolute parts) depth).map FileNode.shown =
      f.entries.map (shownAt absolute parts depth) := by
  induction f generalizing parts depth with
  | nil => rfl
  | cons name count children rest ihc ih =>
    have hname : IsName name := hf ([name], count) List.mem_cons_self name List.mem_cons_self
    have hroot : name ≠ ['/'] := by
      rintro rfl
      exact hname.2 List.mem_cons_self
    have hbelow : ∀ e ∈ children.entries, ∀ n ∈ e.1, IsName n := fun e he n hn =>
      hf (name :: e.1, e.2) (List.mem_append_left _ (List.mem_cons_of_mem _ (List.mem_map_of_mem he))) n
        (List.mem_cons_of_mem _ hn)
    have hbeside : ∀ e ∈ rest.entries, ∀ n ∈ e.1, IsName n := fun e he => hf e (List.mem_append_right _ he)
    have hlonger : ∀ n ∈ parts ++ [name], IsName n := by
      intro n hn
      rcases List.mem_append.mp hn with hn | hn
      · exact hparts n hn
      · exact List.mem_singleton.mp hn ▸ hname
    have hdown := ihc hlonger hbelow (depth + 1)
    rw [← fullPathOf_pathText hparts hname] at hdown
    simp only [buildFileTree, if_neg hroot, Forest.entries, List.map_cons, List.map_append,
      List.map_map, List.cons_append]
    rw [hdown, ih hparts hbeside depth, fullPathOf_pathText hparts hname]
    congr 1
    congr 1
    apply List.map_congr_left
    intro e _
    simp [shownAt, Nat.add_comm, Nat.add_left_comm]

/-- The rows of the whole tree: the root over the absolute paths, what is below it, and the relative paths. -/
theorem shown_joinTrees (before : Str → Str → Bool) {absTree relTree : Forest Str Nat}
    (habs : ∀ e ∈ absTree.entries, ∀ name ∈ e.1, IsName name)
    (hrel : ∀ e ∈ relTree.entries, ∀ name ∈ e.1, IsName name) :
    ((buildFileTree ((joinTrees absTree relTree).sorted before) [] 0).map FileNode.shown).Perm
      ((if absTree ≠ .nil then [(pathText true [], Tries.total absTree, 1)] else []) ++
        (absTree.entries.map (shownAt true [] 1) ++ relTree.entries.map (shownAt false [] 0))) := by
  refine ((buildFileTree_sorted _ _ _ _).map _).trans (List.Perm.of_eq ?_)
  have hdown := @shown_buildFileTree true [] nofun absTree habs 1
  have hbeside := @shown_buildFileTree false [] nofun relTree hrel 0
  rw [joinTrees]
  split
  · simp only [buildFileTree, if_pos, List.map_cons, List.map_append]
    rw [← hdown, ← hbeside]
    rfl
  · rename_i hnil
    rw [not_not.mp hnil, Forest.entries, ← hbeside]
    rfl

end Bdtrace
