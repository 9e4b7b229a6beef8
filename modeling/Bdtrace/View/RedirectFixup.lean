import Bdtrace.View.RebuildSearch

/-! What the shell redirect fixup makes of a trace: which processes take over the outputs of which. -/
namespace Bdtrace
open Std (TreeMap TreeSet)

namespace Tables
variable (t : Tables)

/-- The process has an access row for the file, with a mode that outputs. -/
def Outputs (pid : Int) (file : Str) : Prop :=
  ∃ a ∈ t.accesses, a.pid = pid ∧ a.path = some file ∧ isOutputMode a.mode = true

def Reads (pid : Int) (file : Str) : Prop :=
  ∃ a ∈ t.accesses, a.pid = pid ∧ a.path = some file ∧ isInputMode a.mode = true

def Child (parent child : Int) : Prop := ∃ r ∈ t.processes, r.ppid = parent ∧ r.pid = child

/-- A process that reads files and outputs none: it takes over what its parent outputs. -/
def Takes (pid : Int) : Prop := (∃ file, t.Reads pid file) ∧ ∀ file, ¬ t.Outputs pid file

/-- The loop hands the outputs of a process to its children, and from a child to its own children when that
child comes later in the order of pids than its parent. -/
inductive Inherits : Int → Int → Prop
  | child {owner heir : Int} {file : Str} (hfile : t.Outputs owner file) (hchild : t.Child owner heir)
      (htakes : t.Takes heir) : Inherits owner heir
  | further {owner parent middle heir : Int} (h : Inherits owner middle) (hparent : t.Child parent middle)
      (hlt : parent < middle) (hchild : t.Child middle heir) (htakes : t.Takes heir) : Inherits owner heir

theorem Inherits.takes {owner heir : Int} (h : t.Inherits owner heir) : t.Takes heir := by
  cases h with
  | child _ _ htakes => exact htakes
  | further _ _ _ _ htakes => exact htakes

theorem Inherits.parent {owner heir : Int} (h : t.Inherits owner heir) : ∃ parent, t.Child parent heir := by
  cases h with
  | child _ hchild _ => exact ⟨_, hchild⟩
  | further _ _ _ hchild _ => exact ⟨_, hchild⟩

/-- What is inherited comes from an ancestor. -/
theorem Inherits.ancestor {owner heir : Int} (h : t.Inherits owner heir) : Relation.TransGen t.Child owner heir := by
  induction h with
  | child _ hchild _ => exact .single hchild
  | further _ _ _ hchild _ ih => exact ih.tail hchild

theorem child_unique (hk : t.pids.Nodup) {p q c : Int} (hp : t.Child p c) (hq : t.Child q c) : p = q := by
  obtain ⟨r, hr, rfl, rfl⟩ := hp
  obtain ⟨r', hr', rfl, hpid⟩ := hq
  rw [List.inj_on_of_nodup_map hk hr' hr hpid]

end Tables

namespace DependencyGraph

/-- The processes that output a file. -/
def writersOf (g : DependencyGraph) (file : Str) : TreeSet Int := g.fileToWriters.getD file ∅

section Maps
variable {κ α : Type} [Ord κ] [Std.TransOrd κ] [Std.LawfulEqOrd κ] [Ord α]

theorem mem_insertInto (m : TreeMap κ (TreeSet α)) (k l : κ) (a : α) : l ∈ insertInto m k a ↔ l = k ∨ l ∈ m := by
  by_cases h : k = l
  · subst h
    simp [insertInto]
  · have hne : compare k l ≠ .eq := by simpa using h
    simp [insertInto, Std.TreeMap.mem_alter, hne, Ne.symm h]

private theorem mem_getD_insertInto [Std.TransOrd α] [Std.LawfulEqOrd α] (m : TreeMap κ (TreeSet α))
    (k l : κ) (a b : α) :
    b ∈ (insertInto m k a).getD l ∅ ↔ b ∈ m.getD l ∅ ∨ (l = k ∧ b = a) := by
  by_cases h : k = l
  · subst h
    rw [insertInto, Std.TreeMap.getD_alter_self, Option.getD_some, ← Std.TreeMap.getD_eq_getD_getElem?,
      Std.TreeSet.mem_insert, Std.compare_eq_iff_eq, or_comm, @eq_comm _ a b]
    simp only [true_and]
  · have hne : compare k l ≠ .eq := by simpa using h
    simp [insertInto, Std.TreeMap.getD_alter, hne, Ne.symm h]

end Maps

/-- One output of a process, in both maps. -/
def addOutput (g : DependencyGraph) (pid : Int) (file : Str) : DependencyGraph :=
  { g with pidToOutputs := insertInto g.pidToOutputs pid file, fileToWriters := insertInto g.fileToWriters file pid }

/-- The writers mirror the outputs, and no process is a key without an output. -/
structure Tight (g : DependencyGraph) : Prop where
  keys : ∀ p ∈ g.pidToOutputs, ∃ f, f ∈ g.outputsOf p
  writers : ∀ f p, p ∈ g.writersOf f ↔ f ∈ g.outputsOf p

private theorem mem_outputsOf_addOutput (g : DependencyGraph) (p q : Int) (f file : Str) :
    f ∈ (g.addOutput p file).outputsOf q ↔ f ∈ g.outputsOf q ∨ (q = p ∧ f = file) := mem_getD_insertInto _ _ _ _ _

private theorem Tight.addOutput {g : DependencyGraph} (h : g.Tight) (p : Int) (file : Str) :
    (g.addOutput p file).Tight := by
  refine ⟨fun q hq => ?_, fun f q => ?_⟩
  · rcases (mem_insertInto _ _ _ _).mp hq with rfl | hq
    · exact ⟨file, (mem_outputsOf_addOutput g _ _ _ _).mpr (.inr ⟨rfl, rfl⟩)⟩
    · obtain ⟨f, hf⟩ := h.keys q hq
      exact ⟨f, (mem_outputsOf_addOutput g _ _ _ _).mpr (.inl hf)⟩
  · rw [mem_outputsOf_addOutput, ← h.writers]
    refine (mem_getD_insertInto g.fileToWriters file f p q).trans ?_
    exact or_congr_right and_comm

theorem Tight.mem_iff {g : DependencyGraph} (h : g.Tight) (p : Int) : p ∈ g.pidToOutputs ↔ ∃ f, f ∈ g.outputsOf p := by
  refine ⟨h.keys p, fun ⟨f, hf⟩ => ?_⟩
  by_contra hp
  rw [outputsOf, Std.TreeMap.getD_eq_fallback hp] at hf
  exact Std.TreeSet.not_mem_emptyc hf

/-- What a fold of outputs for one process does. -/
private theorem addOutputs (p : Int) (files : List Str) {g : DependencyGraph} (h : g.Tight) :
    (files.foldl (fun g file => g.addOutput p file) g).Tight ∧
      ∀ f q, f ∈ (files.foldl (fun g file => g.addOutput p file) g).outputsOf q ↔
        f ∈ g.outputsOf q ∨ (q = p ∧ f ∈ files) := by
  induction files generalizing g with
  | nil => exact ⟨h, fun f q => by simp⟩
  | cons file files ih =>
    obtain ⟨htight, hmem⟩ := ih (h.addOutput p file)
    refine ⟨htight, fun f q => ?_⟩
    rw [List.foldl_cons, hmem, mem_outputsOf_addOutput, List.mem_cons]
    tauto

/-- A reading child without outputs gets those of its parent, and nothing else changes. -/
private theorem propagate_outputs {g : DependencyGraph} (h : g.Tight) (readers : TreeSet Int)
    (outputs : TreeSet Str) (child : Int) :
    (g.propagate readers outputs child).Tight ∧
      ∀ f q, f ∈ (g.propagate readers outputs child).outputsOf q ↔
        f ∈ g.outputsOf q ∨ (q = child ∧ (∀ f', f' ∉ g.outputsOf q) ∧ q ∈ readers ∧ f ∈ outputs) := by
  rw [propagate]
  split
  · rename_i hskip
    refine ⟨h, fun f q => ⟨.inl, fun hf => hf.resolve_right ?_⟩⟩
    rintro ⟨rfl, hnone, hread, -⟩
    rcases hskip with hkey | hread'
    · obtain ⟨f', hf'⟩ := h.keys q hkey
      exact hnone f' hf'
    · exact hread' hread
  · rename_i htake
    obtain ⟨hkey, hread⟩ := not_or.mp htake
    obtain ⟨htight, hmem⟩ := addOutputs child outputs.toList h
    refine ⟨htight, fun f q => (hmem f q).trans (or_congr_right (and_congr_right ?_))⟩
    rintro rfl
    rw [Std.TreeSet.mem_toList]
    have hnone : ∀ f', f' ∉ g.outputsOf q := fun f' hf' => hkey ((h.mem_iff q).mpr ⟨f', hf'⟩)
    exact ⟨fun hf => ⟨hnone, not_not.mp hread, hf⟩, fun hf => hf.2.2⟩

/-- The children of one parent. -/
private theorem propagate_children (readers : TreeSet Int) (outputs : TreeSet Str) (children : List Int)
    {g : DependencyGraph}
    (h : g.Tight) :
    (children.foldl (fun g child => g.propagate readers outputs child) g).Tight ∧
      ∀ f q, f ∈ (children.foldl (fun g child => g.propagate readers outputs child) g).outputsOf q ↔
        f ∈ g.outputsOf q ∨ (q ∈ children ∧ (∀ f', f' ∉ g.outputsOf q) ∧ q ∈ readers ∧ f ∈ outputs) := by
  induction children generalizing g with
  | nil => exact ⟨h, fun f q => by simp⟩
  | cons child children ih =>
    obtain ⟨htight, hmem⟩ := propagate_outputs h readers outputs child
    obtain ⟨htight', hmem'⟩ := ih htight
    refine ⟨htight', fun f q => ?_⟩
    rw [List.foldl_cons, hmem', hmem, List.mem_cons]
    have hnone : (∀ f', f' ∉ (g.propagate readers outputs child).outputsOf q) → ∀ f', f' ∉ g.outputsOf q :=
      fun hn f' hf' => hn f' ((hmem f' q).mpr (.inl hf'))
    constructor
    · rintro ((hf | ⟨rfl, hf⟩) | ⟨hq, hn, hf⟩)
      · exact .inl hf
      · exact .inr ⟨.inl rfl, hf⟩
      · exact .inr ⟨.inr hq, hnone hn, hf⟩
    · rintro (hf | ⟨rfl | hq, hf⟩)
      · exact .inl (.inl hf)
      · exact .inl (.inr ⟨rfl, hf⟩)
      · by_cases hc : q = child
        · exact .inl (.inr ⟨hc, hf⟩)
        · refine .inr ⟨hq, fun f' hf' => ?_, hf.2⟩
          exact ((hmem f' q).mp hf').elim (hf.1 f') fun h => hc h.1

/-- One turn of the loop over the parents. -/
def fixupTurn (readers : TreeSet Int) (g : DependencyGraph) (entry : Int × List Int) : DependencyGraph :=
  match g.pidToOutputs[entry.1]? with
  | none => g
  | some outputs => entry.2.foldl (fun g child => g.propagate readers outputs child) g

private theorem fixupTurn_outputs {g : DependencyGraph} (h : g.Tight) (readers : TreeSet Int) (parent : Int)
    (children : List Int) :
    (g.fixupTurn readers (parent, children)).Tight ∧
      ∀ f q, f ∈ (g.fixupTurn readers (parent, children)).outputsOf q ↔
        f ∈ g.outputsOf q ∨ (q ∈ children ∧ (∀ f', f' ∉ g.outputsOf q) ∧ q ∈ readers ∧ f ∈ g.outputsOf parent) := by
  have hout : g.outputsOf parent = g.pidToOutputs[parent]?.getD ∅ := Std.TreeMap.getD_eq_getD_getElem?
  unfold fixupTurn
  split
  · rename_i hnone
    have hnone : g.pidToOutputs[parent]? = none := hnone
    rw [hout, hnone]
    exact ⟨h, fun f q => by simp⟩
  · rename_i outputs hsome
    have hsome : g.pidToOutputs[parent]? = some outputs := hsome
    rw [hout, hsome]
    exact propagate_children readers outputs children h

/-! ### The graph before the fixup -/

/-- The union of the sets in a map. -/
theorem mem_foldl_values {κ α : Type} [Ord κ] [Std.TransOrd κ] [Std.LawfulEqOrd κ] [Ord α] [Std.TransOrd α]
    [Std.LawfulEqOrd α] (m : TreeMap κ (TreeSet α)) (a : α) :
    a ∈ m.values.foldl (fun s values => values.foldl (fun s a => s.insert a) s) (∅ : TreeSet α) ↔
      ∃ k, a ∈ m.getD k ∅ := by
  have hfold : ∀ (rs : List (TreeSet α)) (s : TreeSet α),
      a ∈ rs.foldl (fun s values => values.foldl (fun s a => s.insert a) s) s ↔ a ∈ s ∨ ∃ r ∈ rs, a ∈ r := fun rs => by
    induction rs with
    | nil => simp
    | cons r rs ih =>
      intro s
      rw [List.foldl_cons, ih, Std.TreeSet.foldl_eq_foldl_toList, mem_foldl_insert,
        Std.TreeSet.mem_toList, @or_comm (a ∈ r)]
      simp only [List.mem_cons, exists_eq_or_imp, or_assoc]
  have hvalues : m.values = m.toList.map (·.2) := by
    have hvals : m.values = m.foldr (fun _ v l => v :: l) [] := rfl
    rw [hvals, Std.TreeMap.foldr_eq_foldr_toList, List.foldr_cons_eq_append, List.append_nil]
  rw [hfold, hvalues]
  constructor
  · rintro (h | ⟨r, hr, hp⟩)
    · exact absurd h Std.TreeSet.not_mem_emptyc
    · obtain ⟨⟨k, r'⟩, hmem, rfl⟩ := List.mem_map.mp hr
      refine ⟨k, ?_⟩
      rw [Std.TreeMap.getD_eq_getD_getElem?, Std.TreeMap.mem_toList_iff_getElem?_eq_some.mp hmem]
      exact hp
  · rintro ⟨k, hp⟩
    rw [Std.TreeMap.getD_eq_getD_getElem?] at hp
    cases hk : m[k]? with
    | none =>
      rw [hk] at hp
      exact absurd hp Std.TreeSet.not_mem_emptyc
    | some r =>
      rw [hk] at hp
      exact .inr ⟨r, List.mem_map.mpr ⟨(k, r), Std.TreeMap.mem_toList_iff_getElem?_eq_some.mpr hk, rfl⟩, hp⟩

private theorem mem_readsAny (g : DependencyGraph) (p : Int) : p ∈ g.readsAny ↔ ∃ f, p ∈ g.readersOf f :=
  mem_foldl_values g.fileToReaders p

private theorem addAccess_outputs {g : DependencyGraph} (h : g.Tight) (p : Int) (file : Str) (mode : Int) :
    (g.addAccess p file mode).Tight ∧ ∀ f q, f ∈ (g.addAccess p file mode).outputsOf q ↔
      f ∈ g.outputsOf q ∨ (q = p ∧ f = file ∧ isOutputMode mode = true) := by
  have hreaders : ∀ m : TreeMap Str (TreeSet Int), ({ g with fileToReaders := m } : DependencyGraph).Tight :=
    fun _ => ⟨h.keys, h.writers⟩
  rw [addAccess]
  cases isOutputMode mode with
  | false =>
    simp only [Bool.false_eq_true, if_false, and_false, or_false]
    split
    · exact ⟨hreaders _, fun _ _ => Iff.rfl⟩
    · exact ⟨h, fun _ _ => Iff.rfl⟩
  | true =>
    simp only [if_true, and_true]
    split
    · exact ⟨(hreaders _).addOutput p file, fun f q => mem_outputsOf_addOutput _ p q f file⟩
    · exact ⟨h.addOutput p file, fun f q => mem_outputsOf_addOutput g p q f file⟩

theorem addAccess_readers (g : DependencyGraph) (p : Int) (file : Str) (mode : Int) (f : Str) (q : Int) :
    q ∈ (g.addAccess p file mode).readersOf f ↔ q ∈ g.readersOf f ∨ (f = file ∧ q = p ∧ isInputMode mode = true) := by
  rw [addAccess]
  cases isInputMode mode with
  | false =>
    simp only [Bool.false_eq_true, if_false, and_false, or_false]
    split <;> exact Iff.rfl
  | true =>
    simp only [if_true, and_true]
    split <;> exact mem_getD_insertInto _ _ _ _ _

/-- An access row on its way into the graph. -/
def addStored (g : DependencyGraph) (a : Tables.StoredAccess) : DependencyGraph :=
  match a.path with
  | none => g
  | some path => g.addAccess a.pid path a.mode

private theorem addStored_outputs (accs : List Tables.StoredAccess) {g : DependencyGraph} (h : g.Tight) :
    (accs.foldl addStored g).Tight ∧
      (∀ f q, f ∈ (accs.foldl addStored g).outputsOf q ↔
        f ∈ g.outputsOf q ∨ ∃ a ∈ accs, a.pid = q ∧ a.path = some f ∧ isOutputMode a.mode = true) ∧
      ∀ f q, q ∈ (accs.foldl addStored g).readersOf f ↔
        q ∈ g.readersOf f ∨ ∃ a ∈ accs, a.pid = q ∧ a.path = some f ∧ isInputMode a.mode = true := by
  induction accs generalizing g with
  | nil => exact ⟨h, by simp, by simp⟩
  | cons a accs ih =>
    have hstep : (g.addStored a).Tight ∧
        (∀ f q, f ∈ (g.addStored a).outputsOf q ↔
          f ∈ g.outputsOf q ∨ (a.pid = q ∧ a.path = some f ∧ isOutputMode a.mode = true)) ∧
        ∀ f q, q ∈ (g.addStored a).readersOf f ↔
          q ∈ g.readersOf f ∨ (a.pid = q ∧ a.path = some f ∧ isInputMode a.mode = true) := by
      unfold addStored
      cases hpath : a.path with
      | none => exact ⟨h, by simp, by simp⟩
      | some path =>
        obtain ⟨htight, hout⟩ := addAccess_outputs h a.pid path a.mode
        refine ⟨htight, fun f q => (hout f q).trans ?_, fun f q => (addAccess_readers g a.pid path a.mode f q).trans ?_⟩
        · simp only [Option.some.injEq, eq_comm]
        · simp only [Option.some.injEq, eq_comm, and_left_comm]
    obtain ⟨htight, hout, hread⟩ := hstep
    obtain ⟨htight', hout', hread'⟩ := ih htight
    refine ⟨htight', fun f q => ?_, fun f q => ?_⟩
    · rw [List.foldl_cons, hout', hout]
      simp only [List.mem_cons, exists_eq_or_imp, or_assoc]
    · rw [List.foldl_cons, hread', hread]
      simp only [List.mem_cons, exists_eq_or_imp, or_assoc]

/-- The graph before the fixup. -/
def ofRows (t : Tables) : DependencyGraph := t.allProcesses.foldl addProcess (t.accesses.foldl addStored {})

private theorem ofRows_outputs (t : Tables) : (ofRows t).Tight ∧ (∀ f q, f ∈ (ofRows t).outputsOf q ↔ t.Outputs q f) ∧
    ∀ f q, q ∈ (ofRows t).readersOf f ↔ t.Reads q f := by
  have hrows : ∀ (rs : List ProcessRecord) (g : DependencyGraph),
      (rs.foldl addProcess g).fileToReaders = g.fileToReaders ∧
      (rs.foldl addProcess g).pidToOutputs = g.pidToOutputs ∧ (rs.foldl addProcess g).fileToWriters = g.fileToWriters :=
    fun rs => by
      induction rs with
      | nil => exact fun g => ⟨rfl, rfl, rfl⟩
      | cons r rs ih => exact fun g => ih (g.addProcess r)
  obtain ⟨hreaders, houtputs, hwriters⟩ := hrows t.allProcesses (t.accesses.foldl addStored {})
  have hempty : ({} : DependencyGraph).Tight :=
    ⟨fun p hp => absurd hp Std.TreeMap.not_mem_emptyc, fun f p => by simp [writersOf, outputsOf]⟩
  obtain ⟨htight, hout, hread⟩ := addStored_outputs t.accesses hempty
  refine ⟨⟨?_, ?_⟩, fun f q => ?_, fun f q => ?_⟩
  · rw [ofRows, houtputs]
    simp only [outputsOf, houtputs]
    exact htight.keys
  · simp only [ofRows, writersOf, outputsOf, houtputs, hwriters]
    exact htight.writers
  · simp only [ofRows, outputsOf, houtputs]
    refine (hout f q).trans ?_
    simp [outputsOf, Tables.Outputs]
  · simp only [ofRows, readersOf, hreaders]
    refine (hread f q).trans ?_
    simp [readersOf, Tables.Reads]

private theorem child_iff (t : Tables) (p c : Int) : t.Child p c ↔ c ∈ (ofRows t).childrenOf p := by
  have htree := (Prod.mk.inj (redirectFixup_tree (ofRows t))).2
  have hmem := mem_childrenOf t p c
  rw [childrenOf, show (buildDependencyGraph t).pidChildren = _ from htree] at hmem
  exact hmem.symm

/-! ### The fixup -/

/-- The outputs after the parents in `done` have been treated. -/
structure Treated (t : Tables) (done : Int → Prop) (g : DependencyGraph) : Prop where
  tight : g.Tight
  outputs : ∀ f q, f ∈ g.outputsOf q ↔
    t.Outputs q f ∨ ∃ owner parent, t.Inherits owner q ∧ t.Child parent q ∧ done parent ∧ t.Outputs owner f

private theorem treated_turn {t : Tables} (hk : t.pids.Nodup) {done : Int → Prop} {g : DependencyGraph}
    (h : Treated t done g)
    {k : Int} {children : List Int} (hchildren : ∀ c, c ∈ children ↔ t.Child k c) (hnew : ¬ done k)
    (hdone : ∀ p, (∃ c, t.Child p c) → (done p ↔ p < k)) :
    Treated t (fun p => done p ∨ p = k) (g.fixupTurn (ofRows t).readsAny (k, children)) := by
  obtain ⟨htight, hmem⟩ := fixupTurn_outputs h.tight (ofRows t).readsAny k children
  refine ⟨htight, fun f q => (hmem f q).trans ?_⟩
  rw [hchildren]
  have hreads : q ∈ (ofRows t).readsAny ↔ ∃ file, t.Reads q file :=
    (mem_readsAny _ q).trans (exists_congr fun file => (ofRows_outputs t).2.2 file q)
  constructor
  · rintro (hf | ⟨hchild, hnone, hread, hf⟩)
    · exact ((h.outputs f q).mp hf).imp_right fun ⟨owner, parent, hi, hc, hd, ho⟩ =>
        ⟨owner, parent, hi, hc, .inl hd, ho⟩
    · have htakes : t.Takes q := ⟨hreads.mp hread, fun f' hf' => hnone f' ((h.outputs f' q).mpr (.inl hf'))⟩
      rcases (h.outputs f k).mp hf with hown | ⟨owner, parent, hi, hc, hd, ho⟩
      · exact .inr ⟨k, k, .child hown hchild htakes, hchild, .inr rfl, hown⟩
      · exact .inr ⟨owner, k, .further hi hc ((hdone parent ⟨k, hc⟩).mp hd) hchild htakes, hchild, .inr rfl, ho⟩
  · rintro (hown | ⟨owner, parent, hi, hc, hd | rfl, ho⟩)
    · exact .inl ((h.outputs f q).mpr (.inl hown))
    · exact .inl ((h.outputs f q).mpr (.inr ⟨owner, parent, hi, hc, hd, ho⟩))
    · have htakes := hi.takes
      refine .inr ⟨hc, fun f' hf' => ?_, hreads.mpr htakes.1, (h.outputs f parent).mpr ?_⟩
      · rcases (h.outputs f' q).mp hf' with hown | ⟨-, parent', -, hc', hd', -⟩
        · exact htakes.2 f' hown
        · exact hnew (Tables.child_unique t hk hc' hc ▸ hd')
      · cases hi with
        | child hfile hchild _ => exact .inl (Tables.child_unique t hk hchild hc ▸ ho)
        | further hm hparent hlt hchild _ =>
          obtain rfl := Tables.child_unique t hk hchild hc
          exact .inr ⟨owner, _, hm, hparent, (hdone _ ⟨_, hparent⟩).mpr hlt, ho⟩

private theorem treated_fold {t : Tables} (hk : t.pids.Nodup) (rest : List (Int × List Int))
    {before : List (Int × List Int)}
    (hlist : (ofRows t).pidChildren.toList = before ++ rest) {g : DependencyGraph}
    (h : Treated t (fun p => p ∈ before.map (·.1)) g) :
    Treated t (fun p => p ∈ (before ++ rest).map (·.1)) (rest.foldl (fixupTurn (ofRows t).readsAny) g) := by
  induction rest generalizing before g with
  | nil => simpa using h
  | cons entry rest ih =>
    obtain ⟨k, children⟩ := entry
    have hsorted := @Std.TreeMap.ordered_keys_toList _ _ _ (ofRows t).pidChildren _
    rw [hlist, List.pairwise_append] at hsorted
    obtain ⟨-, hrest, hbefore⟩ := hsorted
    have hlow : ∀ p ∈ before.map (·.1), p < k := fun p hp => by
      obtain ⟨e, he, rfl⟩ := List.mem_map.mp hp
      exact Int.compare_eq_lt.mp (hbefore e he (k, children) List.mem_cons_self)
    have hhigh : ∀ p ∈ rest.map (·.1), k < p := fun p hp => by
      obtain ⟨e, he, rfl⟩ := List.mem_map.mp hp
      exact Int.compare_eq_lt.mp ((List.pairwise_cons.mp hrest).1 e he)
    have hget : (ofRows t).pidChildren[k]? = some children := by
      apply Std.TreeMap.mem_toList_iff_getElem?_eq_some.mp
      rw [hlist]
      exact List.mem_append_right _ List.mem_cons_self
    have hchildren : ∀ c, c ∈ children ↔ t.Child k c := fun c => by
      rw [child_iff, childrenOf, Std.TreeMap.getD_eq_getD_getElem?, hget, Option.getD_some]
    have hdone : ∀ p, (∃ c, t.Child p c) → (p ∈ before.map (·.1) ↔ p < k) := by
      rintro p ⟨c, hc⟩
      refine ⟨hlow p, fun hlt => ?_⟩
      have hkey : p ∈ (before ++ (k, children) :: rest).map (·.1) := by
        rw [← hlist, Std.TreeMap.map_fst_toList_eq_keys, Std.TreeMap.mem_keys]
        by_contra hp
        rw [child_iff, childrenOf, Std.TreeMap.getD_eq_fallback hp] at hc
        exact List.not_mem_nil hc
      rw [List.map_append, List.map_cons, List.mem_append, List.mem_cons] at hkey
      rcases hkey with hp | rfl | hp
      · exact hp
      · omega
      · exact absurd (hhigh p hp) (by omega)
    have hturn := treated_turn hk h hchildren (fun hmem => absurd (hlow k hmem) (by omega)) hdone
    have hstep : Treated t (fun p => p ∈ (before ++ [(k, children)]).map (·.1))
        (g.fixupTurn (ofRows t).readsAny (k, children)) := by
      simpa only [List.map_append, List.map_cons, List.map_nil, List.mem_append, List.mem_singleton] using hturn
    have hall := ih (by rw [hlist, List.append_assoc, List.singleton_append]) hstep
    rwa [List.append_assoc, List.singleton_append] at hall

theorem treated_built {t : Tables} (hk : t.pids.Nodup) :
    Treated t (fun p => p ∈ (ofRows t).pidChildren) (buildDependencyGraph t) := by
  have hstart : Treated t (fun p => p ∈ ([] : List (Int × List Int)).map (·.1)) (ofRows t) :=
    ⟨(ofRows_outputs t).1, fun f q => by simp [(ofRows_outputs t).2.1]⟩
  have hall := treated_fold hk (ofRows t).pidChildren.toList rfl hstart
  simp only [List.nil_append, Std.TreeMap.map_fst_toList_eq_keys, Std.TreeMap.mem_keys] at hall
  exact hall

/-- What a process outputs in the graph: its own outputs, or those it inherits. -/
theorem mem_outputsOf {t : Tables} (hk : t.pids.Nodup) (f : Str) (q : Int) :
    f ∈ (buildDependencyGraph t).outputsOf q ↔ t.Outputs q f ∨ ∃ owner, t.Inherits owner q ∧ t.Outputs owner f := by
  refine ((treated_built hk).outputs f q).trans (or_congr_right ⟨?_, ?_⟩)
  · rintro ⟨owner, -, hi, -, -, ho⟩
    exact ⟨owner, hi, ho⟩
  · rintro ⟨owner, hi, ho⟩
    obtain ⟨parent, hc⟩ := hi.parent
    refine ⟨owner, parent, hi, hc, ?_, ho⟩
    by_contra hp
    rw [child_iff, childrenOf, Std.TreeMap.getD_eq_fallback hp] at hc
    exact List.not_mem_nil hc

theorem mem_writersOf {t : Tables} (hk : t.pids.Nodup) (f : Str) (q : Int) :
    q ∈ (buildDependencyGraph t).writersOf f ↔ f ∈ (buildDependencyGraph t).outputsOf q :=
  (treated_built hk).tight.writers f q

/-- The fixup and the process rows leave the readers. -/
theorem fileToReaders_built (t : Tables) :
    (buildDependencyGraph t).fileToReaders = (t.accesses.foldl addStored {}).fileToReaders := by
  have hfixup : (buildDependencyGraph t).fileToReaders = (ofRows t).fileToReaders := by
    apply foldl_keeps fileToReaders
    intro g entry
    split
    · rfl
    · apply foldl_keeps fileToReaders
      intro g child
      rw [propagate]
      split
      · rfl
      · apply foldl_keeps fileToReaders
        intro g file
        rfl
  rw [hfixup]
  apply foldl_keeps fileToReaders
  intro g r
  rfl

theorem mem_readersOf (t : Tables) (f : Str) (q : Int) : q ∈ (buildDependencyGraph t).readersOf f ↔ t.Reads q f := by
  have hrows : (ofRows t).fileToReaders = (t.accesses.foldl addStored {}).fileToReaders :=
    foldl_keeps fileToReaders addProcess (fun _ _ => rfl) _ _
  rw [readersOf, fileToReaders_built, ← hrows]
  exact (ofRows_outputs t).2.2 f q

/-! ### Consistency -/

/-- Where the entries of a graph come from. -/
structure Consistent (t : Tables) (g : DependencyGraph) : Prop where
  readers : ∀ f p, p ∈ g.readersOf f ↔ t.Reads p f
  mirrored : ∀ f p, f ∈ g.outputsOf p ↔ p ∈ g.writersOf f
  rows : ∀ f p, t.Outputs p f → f ∈ g.outputsOf p
  extra : ∀ f p, f ∈ g.outputsOf p → ¬ t.Outputs p f → (∀ f', ¬ t.Outputs p f') ∧ (∃ f', t.Reads p f') ∧
    ∃ a, a ≠ p ∧ Relation.TransGen t.Child a p ∧ t.Outputs a f

/-- The readers are the reading rows, outputs and writers mirror each other, and what the fixup adds to them comes
from an ancestor. -/
theorem consistent_built (t : Tables) (hk : t.pids.Nodup) : Consistent t (buildDependencyGraph t) := by
  refine ⟨fun f p => mem_readersOf t f p, fun f p => (mem_writersOf hk f p).symm, fun f p hf => ?_,
    fun f p hf hown => ?_⟩
  · exact (mem_outputsOf hk f p).mpr (.inl hf)
  · obtain ⟨owner, hi, ho⟩ := ((mem_outputsOf hk f p).mp hf).resolve_left hown
    refine ⟨hi.takes.2, hi.takes.1, owner, ?_, hi.ancestor, ho⟩
    rintro rfl
    exact hown ho

/-- A shell that opens `out` for a child, whose own child reads `in` too. -/
private def redirectTables : Tables :=
  { processes := [{ pid := 1, ppid := 0 }, { pid := 2, ppid := 1 }, { pid := 3, ppid := 2 }]
    files := [⟨1, "in".toList⟩, ⟨2, "out".toList⟩]
    fileAccesses := [⟨1, 1, 2, 1, 1, 0⟩, ⟨2, 2, 1, 0, 3, 0⟩, ⟨3, 3, 1, 0, 3, 0⟩] }

theorem redirect_consistent : Consistent redirectTables (buildDependencyGraph redirectTables) ∧
    "out".toList ∈ (buildDependencyGraph redirectTables).outputsOf 3 :=
  ⟨consistent_built redirectTables (by decide), by decide +kernel⟩

end DependencyGraph
end Bdtrace
