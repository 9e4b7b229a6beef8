import Bdtrace.General.Words
import Bdtrace.View.ScriptTokens

/-! When the code that an interpreter is given on its command line is taken for a script. -/
namespace Bdtrace

/-- The words behind the program of a command, its `env` wrappers taken off. -/
def arguments (cmdline : Str) : List Str := Words.words ' ' (skipWord (stripEnv cmdline))

def isOption (w : Str) : Bool := w.head? = some '-'

/-- The option words before the first other word. -/
def optionWords (ws : List Str) : List Str := ws.takeWhile isOption

/-- The words without those that a flag takes as its argument; `taken` says that the first one is such. -/
def withoutArguments (taken : Bool) : List Str → List Str
  | [] => []
  | w :: ws => if taken then withoutArguments false ws else w :: withoutArguments (argumentFlags.contains w) ws

/-- The words as the scanner reads them: no shell flag takes an argument. -/
def readWords (shell : Bool) (ws : List Str) : List Str := if shell then ws else withoutArguments false ws

/-- The flags that the scanner takes for inline code. -/
def InlineFlag (shell : Bool) (w : Str) : Prop := w = "-c".toList ∨ (shell = false ∧ w = "-e".toList)

instance (shell : Bool) (w : Str) : Decidable (InlineFlag shell w) := by
  unfold InlineFlag
  infer_instance

/-- An inline flag stands alone among the options, or no other word can be taken for a script. -/
def SpelledOut (shell : Bool) (exe : Str) (ws : List Str) : Prop :=
  (∃ w ∈ optionWords (readWords shell ws), InlineFlag shell w) ∨
  ∀ w ∈ ((readWords shell ws).dropWhile isOption).head?, basenameOf w = [] ∨ basenameOf w = exe

/-! ### The scanner over words -/

section Scanner
variable {s rest : Str} {c : Char} {shell : Bool}

private theorem words_of_blank (h : skipBlanks s = []) : Words.words ' ' s = [] := by
  rw [← Words.words_dropWhile]
  exact (congrArg _ h).trans Words.words_nil

private theorem words_of_word (h : skipBlanks s = c :: rest) :
    Words.words ' ' s = word (c :: rest) :: Words.words ' ' (skipWord (c :: rest)) := by
  have hc : c ≠ ' ' := by
    have hhead := List.head?_dropWhile_not (· = ' ') s
    rw [skipBlanks] at h
    simpa [h] using hhead
  rw [← Words.words_dropWhile, ← skipBlanks, h, Words.words_cons hc]
  rfl

private theorem words_skipWord_skipBlanks (s : Str) :
    Words.words ' ' (skipWord (skipBlanks s)) = (Words.words ' ' s).tail := by
  cases h : skipBlanks s with
  | nil => rw [words_of_blank h]; exact Words.words_nil
  | cons c rest => rw [words_of_word h]; rfl

private theorem isOption_word (h : skipBlanks s = c :: rest) : isOption (word (c :: rest)) = decide (c = '-') := by
  have hc : c ≠ ' ' := by
    have hhead := List.head?_dropWhile_not (· = ' ') s
    rw [skipBlanks] at h
    simpa [h] using hhead
  simp [isOption, word, hc]

private theorem readWords_cons (shell : Bool) (w : Str) (ws : List Str) : readWords shell (w :: ws) =
    w :: readWords shell (if !shell ∧ w ∈ argumentFlags then ws.tail else ws) := by
  cases shell with
  | true => rfl
  | false =>
    cases ws with
    | nil => simp [readWords, withoutArguments]
    | cons a ws => by_cases hw : w ∈ argumentFlags <;> simp [readWords, withoutArguments, hw]

/-- What the scanner takes from its words. -/
def tokenOf (shell : Bool) (ws : List Str) : Str :=
  if (optionWords ws).any (InlineFlag shell ·) then [] else (ws.dropWhile isOption).head?.getD []

private theorem tokenOf_other {w : Str} (hw : isOption w = false) (ws : List Str) : tokenOf shell (w :: ws) = w := by
  simp [tokenOf, optionWords, hw]

private theorem tokenOf_inline {w : Str} (hw : isOption w = true) (hflag : InlineFlag shell w) (ws : List Str) :
    tokenOf shell (w :: ws) = [] := by
  simp [tokenOf, optionWords, hw, hflag]

private theorem tokenOf_option {w : Str} (hw : isOption w = true) (hflag : ¬ InlineFlag shell w) (ws : List Str) :
    tokenOf shell (w :: ws) = tokenOf shell ws := by
  simp [tokenOf, optionWords, hw, hflag]

/-- The scanner over characters is one over words. -/
private theorem flagToken_eq (shell : Bool) (s : Str) :
    flagToken shell s = tokenOf shell (readWords shell (Words.words ' ' s)) := by
  induction s using flagToken.induct shell with
  | case1 s h =>
    rw [words_of_blank h, flagToken]
    cases shell <;> split <;> simp_all [readWords, withoutArguments, tokenOf, optionWords]
  | case2 s c rest h hc =>
    have hw : isOption (word (c :: rest)) = false := by rw [isOption_word h, decide_eq_false hc]
    rw [words_of_word h, flagToken_cons shell h, if_pos hc, readWords_cons, tokenOf_other hw]
  | case3 s c rest h hc flag hinline =>
    have hw : isOption flag = true := by rw [isOption_word h, decide_eq_true (not_not.mp hc)]
    have hflag : InlineFlag shell flag := by simpa [InlineFlag] using hinline
    rw [words_of_word h, flagToken_cons shell h, if_neg hc, if_pos hinline, readWords_cons, tokenOf_inline hw hflag]
  | case4 s c rest h hc flag hinline harg ih =>
    have hw : isOption flag = true := by rw [isOption_word h, decide_eq_true (not_not.mp hc)]
    have hflag : ¬ InlineFlag shell flag := by simpa [InlineFlag] using hinline
    rw [words_of_word h, flagToken_cons shell h, if_neg hc, if_neg hinline, if_pos harg, readWords_cons, if_pos harg,
      tokenOf_option hw hflag, ih, words_skipWord_skipBlanks]
  | case5 s c rest h hc flag hinline harg ih =>
    have hw : isOption flag = true := by rw [isOption_word h, decide_eq_true (not_not.mp hc)]
    have hflag : ¬ InlineFlag shell flag := by simpa [InlineFlag] using hinline
    rw [words_of_word h, flagToken_cons shell h, if_neg hc, if_neg hinline, if_neg harg, readWords_cons, if_neg harg,
      tokenOf_option hw hflag, ih]

end Scanner

/-! ### Which interpreters scan so -/

/-- The shells, perl and ruby. -/
def takesInlineCode : List Str := shells ++ ["perl", "ruby"].map String.toList

private theorem takesInlineCode_spec : ∀ exe ∈ takesInlineCode,
    exe ∈ interpreters ∧ exe ≠ "env".toList ∧ exe ∉ codeFirstInterpreters := by decide

private theorem scriptToken_eq {cmdline : Str} (h : executable cmdline ∈ takesInlineCode) : scriptToken cmdline =
    tokenOf (executable cmdline ∈ shells) (readWords (executable cmdline ∈ shells) (arguments cmdline)) := by
  induction cmdline using stripEnv.induct with
  | case1 cmdline hnone =>
    obtain ⟨hinterp, henv, hcode⟩ := takesInlineCode_spec _ h
    rw [executable_of_unwrap_none hnone] at hinterp henv hcode ⊢
    rw [arguments, stripEnv_of_unwrap_none hnone, ← flagToken_eq]
    cases hskip : skipWord cmdline with
    | nil =>
      rw [flagToken_eq, Words.words_nil, scriptToken]
      split
      · cases decide (basenameOf (word cmdline) ∈ shells) <;> rfl
      · grind
    | cons c rest =>
      have hblank : c = ' ' := by
        have hhead := List.head?_dropWhile_not (· ≠ ' ') cmdline
        rw [skipWord] at hskip
        rw [hskip] at hhead
        simpa using hhead
      rw [scriptToken_cons hskip, if_neg (not_not.mpr hinterp), if_neg henv, if_neg hcode, flagToken_eq, flagToken_eq,
        hblank, Words.words_cons_self]
  | case2 cmdline inner hsome ih =>
    rw [executable_unwrap hsome] at h ⊢
    rw [scriptToken_unwrap hsome, arguments, stripEnv_unwrap hsome]
    exact ih h

private theorem baseOr_eq_iff (exe token : Str) :
    baseOr exe token = exe ↔ basenameOf token = [] ∨ basenameOf token = exe := by
  unfold baseOr
  split
  · rename_i h
    exact iff_of_true rfl (.inl h)
  · rename_i h
    exact (or_iff_right h).symm

private theorem tokenOf_base_iff (shell : Bool) (exe : Str) (ws : List Str) :
    (basenameOf (tokenOf shell (readWords shell ws)) = [] ∨ basenameOf (tokenOf shell (readWords shell ws)) = exe) ↔
      SpelledOut shell exe ws := by
  unfold tokenOf SpelledOut
  split
  · rename_i h
    simp only [List.any_eq_true, decide_eq_true_eq] at h
    exact iff_of_true (.inl rfl) (.inl h)
  · rename_i h
    simp only [List.any_eq_true, decide_eq_true_eq] at h
    rw [or_iff_right h]
    cases ((readWords shell ws).dropWhile isOption).head? with
    | none => exact iff_of_true (.inl rfl) nofun
    | some w => simp

/-- The interpreter's own name is given exactly if its inline flag is spelled out as a word of its own, or no word can
be taken for a script. -/
theorem cmdName_interpreter_iff (cmdline : Str) (h : executable cmdline ∈ takesInlineCode) :
    cmdName cmdline = executable cmdline ↔
      SpelledOut (executable cmdline ∈ shells) (executable cmdline) (arguments cmdline) := by
  rw [cmdName_eq, baseOr_eq_iff, scriptToken_eq h, tokenOf_base_iff]

theorem cmdName_interpreter_iff_bash : SpelledOut (executable "env A=1 bash -x -c make".toList ∈ shells)
    (executable "env A=1 bash -x -c make".toList) (arguments "env A=1 bash -x -c make".toList) :=
  (cmdName_interpreter_iff "env A=1 bash -x -c make".toList (by decide +kernel)).mp (by decide +kernel)

/-- A cluster of short options by which the interpreter takes code from its command line. -/
def InlineCluster (exe w : Str) : Prop :=
  isOption w ∧ w.tail.head? ≠ some '-' ∧ (exe ∈ shells ∧ 'c' ∈ w ∨ exe ∉ shells ∧ w.getLast? = some 'e')

/-- The first word of the code is reported when the flag is clustered. -/
theorem cmdName_cluster :
    cmdName "sh -ec make".toList = "make".toList ∧ executable "sh -ec make".toList = "sh".toList ∧
    "-ec".toList ∈ optionWords (arguments "sh -ec make".toList) ∧ InlineCluster "sh".toList "-ec".toList ∧
    cmdName "perl -ne print".toList = "print".toList ∧ executable "perl -ne print".toList = "perl".toList ∧
    "-ne".toList ∈ optionWords (arguments "perl -ne print".toList) ∧ InlineCluster "perl".toList "-ne".toList := by
  refine ⟨by decide +kernel, by decide +kernel, by decide +kernel, ⟨by decide, by decide, .inl ⟨by decide, by decide⟩⟩,
    by decide +kernel, by decide +kernel, by decide +kernel, ⟨by decide, by decide, .inr ⟨by decide, by decide⟩⟩⟩

end Bdtrace
