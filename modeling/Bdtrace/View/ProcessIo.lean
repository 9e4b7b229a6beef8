import Bdtrace.View.ProcessTree
import Bdtrace.View.TreeWalks

/-! What a process, or a process with its descendants, reads and writes. -/
namespace Bdtrace
open Std (TreeSet)
open Worklist (Reaches Child weight weight_lt_of_child)

structure ProcessIO where
  inputs : TreeSet Str := ∅
  outputs : TreeSet Str := ∅
  internal : TreeSet Str := ∅

/-- The recursion of `collect_descendant_pids`; `none` when it is deeper than the fuel. -/
def DependencyGraph.collectDescendantPids (g : DependencyGraph) : Nat → Int → TreeSet Int → Option (TreeSet Int)
  | 0, _, _ => none
  | fuel + 1, pid, pids =>
    (g.childrenOf pid).foldlM
      (fun pids child => if child ∈ pids then some pids else g.collectDescendantPids fuel child pids)
      (pids.insert pid)

/-- `Database::get_file_accesses_by_pids`, which joins each access with its path. -/
def Tables.fileAccessesByPids (t : Tables) (pids : TreeSet Int) : List StoredAccess :=
  t.accesses.filter fun a => a.pid ∈ pids ∧ a.path.isSome

/-- The read and the written files. -/
def readsAndWrites (acc : List Tables.StoredAccess) : TreeSet Str × TreeSet Str :=
  acc.foldl (fun s a => match a.path with
    | none => s
    | some path =>
      (if isInputMode a.mode then s.1.insert path else s.1, if isOutputMode a.mode then s.2.insert path else s.2))
    (∅, ∅)

/-- The three-way split at the end of `classify_process_io`. -/
def splitFiles (reads writes : TreeSet Str) (result : ProcessIO) : ProcessIO :=
  writes.toList.foldl (fun io f => if f ∈ reads then io else { io with outputs := io.outputs.insert f })
    (reads.toList.foldl (fun io f =>
      if f ∈ writes then { io with internal := io.internal.insert f }
      else { io with inputs := io.inputs.insert f }) result)

def classifyProcessIo (fuel : Nat) (t : Tables) (g : DependencyGraph) (pid : Int) (tree : Bool) (result : ProcessIO) :
    Option ProcessIO := do
  let pids ← if tree then g.collectDescendantPids fuel pid ∅ else some ((∅ : TreeSet Int).insert pid)
  let (reads, writes) := readsAndWrites (t.fileAccessesByPids pids)
  return splitFiles reads writes result

/-! ### The collected processes -/

namespace DependencyGraph
variable {g : DependencyGraph}

/-- Every collected process stands above the current one, or all that is below it is collected. -/
def Settled (g : DependencyGraph) (pid : Int) (pids : TreeSet Int) : Prop :=
  ∀ x ∈ pids, g.Below x pid ∨ ∀ y, Reaches g.childrenOf x y → y ∈ pids

/-- What the loop over the children has collected when those in `done` are treated. -/
def Collected (g : DependencyGraph) (pid : Int) (pids : TreeSet Int) (done : List Int) (s : TreeSet Int) : Prop :=
  ∀ x, x ∈ s ↔ x ∈ pids ∨ x = pid ∨ ∃ c ∈ done, Reaches g.childrenOf c x

theorem Collected.settled {pid c : Int} {pids s : TreeSet Int} {done : List Int} (h : g.Collected pid pids done s)
    (hsettled : g.Settled pid pids) (hc : c ∈ g.childrenOf pid) : g.Settled c s := by
  intro x hx
  rcases (h x).mp hx with hx | rfl | ⟨d, hd, hreach⟩
  · rcases hsettled x hx with hbelow | hwhole
    · exact .inl (hbelow.tail hc)
    · exact .inr fun y hy => (h y).mpr (.inl (hwhole y hy))
  · exact .inl (.single hc)
  · exact .inr fun y hy => (h y).mpr (.inr (.inr ⟨d, hd, hreach.trans hy⟩))

/-- One child, collected before or in its turn. -/
private theorem collectChild_spec (hacyclic : ∀ p, ¬ g.Below p p)
    {call : Int → TreeSet Int → Option (TreeSet Int)} {c : Int}
    {s : TreeSet Int} (hsettled : g.Settled c s)
    (hcall : ∃ found, call c s = some found ∧ ∀ x, x ∈ found ↔ x ∈ s ∨ Reaches g.childrenOf c x) :
    ∃ found, (if c ∈ s then some s else call c s) = some found ∧ ∀ x, x ∈ found ↔ x ∈ s ∨ Reaches g.childrenOf c x := by
  split
  · rename_i hc
    have hwhole := (hsettled c hc).resolve_left (hacyclic c)
    exact ⟨s, rfl, fun x => ⟨.inl, fun hx => hx.elim id (hwhole x)⟩⟩
  · exact hcall

private theorem collectChildren_spec (hacyclic : ∀ p, ¬ g.Below p p)
    {call : Int → TreeSet Int → Option (TreeSet Int)} {pid : Int}
    {pids : TreeSet Int} (hsettled : g.Settled pid pids)
    (hcall : ∀ c ∈ g.childrenOf pid, ∀ s, g.Settled c s →
      ∃ found, call c s = some found ∧ ∀ x, x ∈ found ↔ x ∈ s ∨ Reaches g.childrenOf c x)
    (rest : List Int) {done : List Int} (hnext : g.childrenOf pid = done ++ rest) {s : TreeSet Int}
    (hs : g.Collected pid pids done s) :
    ∃ found, rest.foldlM (fun s c => if c ∈ s then some s else call c s) s = some found ∧
      g.Collected pid pids (done ++ rest) found := by
  induction rest generalizing done s with
  | nil => exact ⟨s, rfl, by rwa [List.append_nil]⟩
  | cons c rest ih =>
    have hc : c ∈ g.childrenOf pid := hnext ▸ List.mem_append_right _ List.mem_cons_self
    have hc' := hs.settled hsettled hc
    obtain ⟨s', hs', hmem⟩ := collectChild_spec hacyclic hc' (hcall c hc s hc')
    have hstep : g.Collected pid pids (done ++ [c]) s' := fun x => by
      rw [hmem, hs]
      simp only [List.mem_append, List.mem_singleton, or_and_right, exists_or, exists_eq_left, or_assoc]
    obtain ⟨found, hfound, hall⟩ := ih (by rw [hnext, List.append_assoc, List.singleton_append]) hstep
    rw [List.append_assoc, List.singleton_append] at hall
    refine ⟨found, ?_, hall⟩
    rw [List.foldlM_cons, hs']
    exact hfound

/-- On an acyclic tree the recursion ends, and adds the process and all that is below it. -/
private theorem collectDescendantPids_spec (hacyclic : ∀ p, ¬ g.Below p p) {fuel : Nat} {pid : Int}
    (hfuel : weight (wellFounded_childrenOf hacyclic) pid ≤ fuel) {pids : TreeSet Int} (hsettled : g.Settled pid pids) :
    ∃ found, g.collectDescendantPids fuel pid pids = some found ∧
      ∀ x, x ∈ found ↔ x ∈ pids ∨ Reaches g.childrenOf pid x := by
  induction fuel generalizing pid pids with
  | zero =>
    rw [Worklist.weight_eq] at hfuel
    omega
  | succ fuel ih =>
    have hstart : g.Collected pid pids [] (pids.insert pid) := fun x => by
      rw [Std.TreeSet.mem_insert, compare_eq_iff_eq]
      simp [eq_comm, or_comm]
    obtain ⟨found, hfound, hall⟩ := collectChildren_spec hacyclic hsettled (fun c hc s hs => ih (by
      have hlt := weight_lt_of_child (wellFounded_childrenOf hacyclic) hc
      omega) hs) (g.childrenOf pid) rfl hstart
    refine ⟨found, hfound, fun x => (hall x).trans (or_congr_right ?_)⟩
    rw [List.nil_append, Reaches, Relation.ReflTransGen.cases_head_iff, eq_comm]
    rfl

end DependencyGraph

/-! ### The split -/

private theorem mem_insert_iff {α : Type} [Ord α] [Std.TransOrd α] [Std.LawfulEqOrd α] {s : TreeSet α} {a b : α} :
    b ∈ s.insert a ↔ b ∈ s ∨ a = b := by
  rw [Std.TreeSet.mem_insert, Std.compare_eq_iff_eq, or_comm]

/-- One access row. -/
private def addAccessed (s : TreeSet Str × TreeSet Str) (a : Tables.StoredAccess) : TreeSet Str × TreeSet Str :=
  match a.path with
  | none => s
  | some path =>
    (if isInputMode a.mode then s.1.insert path else s.1, if isOutputMode a.mode then s.2.insert path else s.2)

private theorem mem_addAccessed (s : TreeSet Str × TreeSet Str) (a : Tables.StoredAccess) (f : Str) :
    (f ∈ (addAccessed s a).1 ↔ f ∈ s.1 ∨ (a.path = some f ∧ isInputMode a.mode = true)) ∧
      (f ∈ (addAccessed s a).2 ↔ f ∈ s.2 ∨ (a.path = some f ∧ isOutputMode a.mode = true)) := by
  unfold addAccessed
  cases a.path with
  | none => simp
  | some path =>
    constructor
    · cases isInputMode a.mode <;> simp [or_comm]
    · cases isOutputMode a.mode <;> simp [or_comm]

private theorem mem_foldl_addAccessed (acc : List Tables.StoredAccess) (s : TreeSet Str × TreeSet Str) (f : Str) :
    (f ∈ (acc.foldl addAccessed s).1 ↔ f ∈ s.1 ∨ ∃ a ∈ acc, a.path = some f ∧ isInputMode a.mode = true) ∧
      (f ∈ (acc.foldl addAccessed s).2 ↔ f ∈ s.2 ∨ ∃ a ∈ acc, a.path = some f ∧ isOutputMode a.mode = true) := by
  induction acc generalizing s with
  | nil => simp
  | cons a acc ih =>
    obtain ⟨hin, hout⟩ := ih (addAccessed s a)
    rw [List.foldl_cons, hin, hout, (mem_addAccessed s a f).1, (mem_addAccessed s a f).2]
    simp only [List.mem_cons, exists_eq_or_imp, or_assoc, and_self]

private theorem mem_readsAndWrites (acc : List Tables.StoredAccess) (f : Str) :
    (f ∈ (readsAndWrites acc).1 ↔ ∃ a ∈ acc, a.path = some f ∧ isInputMode a.mode = true) ∧
      (f ∈ (readsAndWrites acc).2 ↔ ∃ a ∈ acc, a.path = some f ∧ isOutputMode a.mode = true) := by
  obtain ⟨hin, hout⟩ := mem_foldl_addAccessed acc (∅, ∅) f
  exact ⟨hin.trans (or_iff_right Std.TreeSet.not_mem_emptyc), hout.trans (or_iff_right Std.TreeSet.not_mem_emptyc)⟩

/-- The three sets do not meet, and with the internal files the inputs are all that is read and the outputs all that
is written. -/
structure Splits (io : ProcessIO) (read written : Str → Prop) : Prop where
  inputs : ∀ f, f ∈ io.inputs ∨ f ∈ io.internal ↔ read f
  outputs : ∀ f, f ∈ io.outputs ∨ f ∈ io.internal ↔ written f
  inputsOutputs : ∀ f, f ∈ io.inputs → f ∉ io.outputs
  inputsInternal : ∀ f, f ∈ io.inputs → f ∉ io.internal
  outputsInternal : ∀ f, f ∈ io.outputs → f ∉ io.internal

private theorem foldl_read (writes : TreeSet Str) (files : List Str) (io : ProcessIO) (f : Str) :
    let io' := files.foldl (fun io f =>
      if f ∈ writes then { io with internal := io.internal.insert f } else { io with inputs := io.inputs.insert f }) io
    (f ∈ io'.inputs ↔ f ∈ io.inputs ∨ (f ∈ files ∧ f ∉ writes)) ∧
      (f ∈ io'.internal ↔ f ∈ io.internal ∨ (f ∈ files ∧ f ∈ writes)) ∧ io'.outputs = io.outputs := by
  induction files generalizing io with
  | nil => simp
  | cons file files ih =>
    obtain ⟨hin, hint, hout⟩ := ih (if file ∈ writes then { io with internal := io.internal.insert file }
      else { io with inputs := io.inputs.insert file })
    refine ⟨hin.trans ?_, hint.trans ?_, hout.trans ?_⟩
    · split <;> simp only [mem_insert_iff, List.mem_cons] <;> grind
    · split <;> simp only [mem_insert_iff, List.mem_cons] <;> grind
    · split <;> rfl

private theorem foldl_written (reads : TreeSet Str) (files : List Str) (io : ProcessIO) (f : Str) :
    let io' := files.foldl (fun io f => if f ∈ reads then io else { io with outputs := io.outputs.insert f }) io
    (f ∈ io'.outputs ↔ f ∈ io.outputs ∨ (f ∈ files ∧ f ∉ reads)) ∧ io'.inputs = io.inputs ∧
      io'.internal = io.internal := by
  induction files generalizing io with
  | nil => simp
  | cons file files ih =>
    obtain ⟨hout, hin, hint⟩ := ih (if file ∈ reads then io else { io with outputs := io.outputs.insert file })
    refine ⟨hout.trans ?_, hin.trans ?_, hint.trans ?_⟩
    · split <;> simp only [mem_insert_iff, List.mem_cons] <;> grind
    · split <;> rfl
    · split <;> rfl

private theorem mem_splitFiles (reads writes : TreeSet Str) (f : Str) :
    (f ∈ (splitFiles reads writes {}).inputs ↔ f ∈ reads ∧ f ∉ writes) ∧
      (f ∈ (splitFiles reads writes {}).outputs ↔ f ∈ writes ∧ f ∉ reads) ∧
      (f ∈ (splitFiles reads writes {}).internal ↔ f ∈ reads ∧ f ∈ writes) := by
  obtain ⟨hin, hint, hnone⟩ := foldl_read writes reads.toList {} f
  obtain ⟨hout, hin', hint'⟩ := foldl_written reads writes.toList (reads.toList.foldl (fun io f =>
    if f ∈ writes then { io with internal := io.internal.insert f } else { io with inputs := io.inputs.insert f }) {}) f
  rw [hnone] at hout
  rw [splitFiles, hin', hint', hin, hint, hout]
  simp

private theorem splitFiles_splits (reads writes : TreeSet Str) :
    Splits (splitFiles reads writes {}) (· ∈ reads) (· ∈ writes) := by
  have hmem := mem_splitFiles reads writes
  refine ⟨fun f => ?_, fun f => ?_, fun f hf hf' => ?_, fun f hf hf' => ?_, fun f hf hf' => ?_⟩
  · rw [(hmem f).1, (hmem f).2.2, ← and_or_left]
    exact and_iff_left (Decidable.em _).symm
  · rw [(hmem f).2.1, (hmem f).2.2, @and_comm (f ∈ reads), ← and_or_left]
    exact and_iff_left (Decidable.em _).symm
  · exact ((hmem f).1.mp hf).2 ((hmem f).2.1.mp hf').1
  · exact ((hmem f).1.mp hf).2 ((hmem f).2.2.mp hf').2
  · exact ((hmem f).2.1.mp hf).2 ((hmem f).2.2.mp hf').1

private theorem mem_fileAccessesByPids (t : Tables) (pids : TreeSet Int) (f : Str) (p : Int → Bool) :
    (∃ a ∈ t.fileAccessesByPids pids, a.path = some f ∧ p a.mode = true) ↔
      ∃ pid ∈ pids, ∃ a ∈ t.accesses, a.pid = pid ∧ a.path = some f ∧ p a.mode = true := by
  simp only [Tables.fileAccessesByPids, List.mem_filter, decide_eq_true_eq]
  constructor
  · rintro ⟨a, ⟨ha, hpid, -⟩, hpath, hmode⟩
    exact ⟨a.pid, hpid, a, ha, rfl, hpath, hmode⟩
  · rintro ⟨pid, hpid, a, ha, rfl, hpath, hmode⟩
    exact ⟨a, ⟨ha, hpid, by rw [hpath]; rfl⟩, hpath, hmode⟩

private theorem childPids_rel (t : Tables) : (fun a b => b ∈ t.childPids a) = t.Child := by
  funext a b
  rw [mem_childPids]
  exact congrFun (congrFun (DependencyGraph.childrenOf_rel t) a) b

/-- The query returns the descendants. -/
theorem mem_getDescendantPids {t : Tables} {fuel : Nat} {rootPid : Int} {l : List Int}
    (h : t.getDescendantPids fuel rootPid = some l) (x : Int) : x ∈ l ↔ Relation.TransGen t.Child rootPid x := by
  rw [Worklist.mem_walk h, ← childPids_rel, Relation.TransGen.head'_iff]
  rfl

theorem getDescendantPids_total {t : Tables} (h : t.Acyclic) (rootPid : Int) :
    ∃ n, ∀ fuel, n ≤ fuel → ∃ l, t.getDescendantPids fuel rootPid = some l := by
  apply Worklist.walk_total_of_acyclic (t.processes.map (·.ppid)).toFinset
  · intro a b hb
    obtain ⟨r, hr, rfl, -⟩ : t.Child a b := childPids_rel t ▸ hb
    exact List.mem_toFinset.mpr (List.mem_map_of_mem hr)
  · intro a _ x _ hcycle
    rw [childPids_rel] at hcycle
    exact h x hcycle

/-- On acyclic parent links the processes are the given one and its descendants, which are those that the recursive
query finds, and the three sets split what these processes read and write. -/
theorem classifyProcessIo_tree (t : Tables) (h : t.Acyclic) (pid : Int) :
    ∃ n, ∀ fuel, n ≤ fuel → ∃ pids descendants io,
      (buildDependencyGraph t).collectDescendantPids fuel pid ∅ = some pids ∧
      t.getDescendantPids fuel pid = some descendants ∧
      classifyProcessIo fuel t (buildDependencyGraph t) pid true {} = some io ∧
      (∀ x, x ∈ pids ↔ x = pid ∨ Relation.TransGen t.Child pid x) ∧ (∀ x, x ∈ pids ↔ x ∈ descendants ∨ x = pid) ∧
      Splits io (fun f => ∃ p ∈ pids, t.Reads p f) (fun f => ∃ p ∈ pids, t.Outputs p f) := by
  have hacyclic : ∀ p, ¬ (buildDependencyGraph t).Below p p :=
    fun p hp => h p ((DependencyGraph.below_iff_child p p).mp hp)
  obtain ⟨n, hn⟩ := getDescendantPids_total h pid
  refine ⟨max n (weight (DependencyGraph.wellFounded_childrenOf hacyclic) pid), fun fuel hfuel => ?_⟩
  obtain ⟨descendants, hdesc⟩ := hn fuel ((le_max_left _ _).trans hfuel)
  obtain ⟨pids, hpids, hmem⟩ := DependencyGraph.collectDescendantPids_spec hacyclic ((le_max_right _ _).trans hfuel)
    (fun x hx => absurd hx Std.TreeSet.not_mem_emptyc : (buildDependencyGraph t).Settled pid ∅)
  have hset : ∀ x, x ∈ pids ↔ x = pid ∨ Relation.TransGen t.Child pid x := fun x => by
    rw [hmem, DependencyGraph.reaches_iff_child, Relation.reflTransGen_iff_eq_or_transGen]
    exact or_iff_right Std.TreeSet.not_mem_emptyc
  obtain ⟨io, hio⟩ : ∃ io, io = splitFiles (readsAndWrites (t.fileAccessesByPids pids)).1
    (readsAndWrites (t.fileAccessesByPids pids)).2 {} := ⟨_, rfl⟩
  refine ⟨pids, descendants, io, hpids, hdesc, ?_, hset, fun x => ?_, ?_⟩
  · rw [classifyProcessIo, if_pos rfl, hpids, hio]
    rfl
  · rw [hset, mem_getDescendantPids hdesc, or_comm]
  · have hsplits := splitFiles_splits (readsAndWrites (t.fileAccessesByPids pids)).1
      (readsAndWrites (t.fileAccessesByPids pids)).2
    rw [← hio] at hsplits
    refine ⟨fun f => (hsplits.inputs f).trans ?_, fun f => (hsplits.outputs f).trans ?_, hsplits.inputsOutputs,
      hsplits.inputsInternal, hsplits.outputsInternal⟩
    · exact (mem_readsAndWrites _ f).1.trans (mem_fileAccessesByPids t pids f isInputMode)
    · exact (mem_readsAndWrites _ f).2.trans (mem_fileAccessesByPids t pids f isOutputMode)

/-- A driver, a compiler that writes `o`, and a linker below it that reads it. -/
private def linkTables : Tables :=
  { processes := [{ pid := 1, ppid := 0 }, { pid := 2, ppid := 1 }, { pid := 3, ppid := 2 }]
    files := [⟨1, "o".toList⟩, ⟨2, "exe".toList⟩]
    fileAccesses := [⟨1, 2, 1, 1, 3, 0⟩, ⟨2, 3, 1, 0, 3, 0⟩, ⟨3, 3, 2, 1, 4, 0⟩] }

/-- The linker belongs to the driver's tree, and `exe` is an output or an internal file of it. -/
theorem link_classified : ∃ n, ∀ fuel, n ≤ fuel → ∃ pids io,
    (buildDependencyGraph linkTables).collectDescendantPids fuel 1 ∅ = some pids ∧ 3 ∈ pids ∧
      classifyProcessIo fuel linkTables (buildDependencyGraph linkTables) 1 true {} = some io ∧
      ("exe".toList ∈ io.outputs ∨ "exe".toList ∈ io.internal) := by
  obtain ⟨n, hn⟩ := classifyProcessIo_tree linkTables (Tables.acyclic_of_rank Int.toNat (by decide)) 1
  refine ⟨n, fun fuel hfuel => ?_⟩
  obtain ⟨pids, descendants, io, hpids, -, hio, hset, -, hsplits⟩ := hn fuel hfuel
  have hchild : ∀ r ∈ linkTables.processes, linkTables.Child r.ppid r.pid := fun r hr => ⟨r, hr, rfl, rfl⟩
  have hthree : 3 ∈ pids := (hset 3).mpr (.inr (.tail (.single (hchild { pid := 2, ppid := 1 } (by decide)))
    (hchild { pid := 3, ppid := 2 } (by decide))))
  refine ⟨pids, io, hpids, hthree, hio, (hsplits.outputs _).mpr ⟨3, hthree, ?_⟩⟩
  exact ⟨⟨3, some "exe".toList, 1, 4, 0⟩, by decide, rfl, rfl, rfl⟩

example : (classifyProcessIo 4 linkTables (buildDependencyGraph linkTables) 1 true {}).map
    (fun io => (io.inputs.toList, io.outputs.toList, io.internal.toList)) =
      some ([], ["exe".toList], ["o".toList]) := by
  decide +kernel

end Bdtrace
