import Bdtrace.Types

/-! The short name of a command line: its program, or the script that an interpreter runs. -/
namespace Bdtrace

def basenameOf (path : Str) : Str := (path.reverse.takeWhile (· ≠ '/')).reverse

/-- The characters up to the next blank, and the rest from that blank on. -/
def word (s : Str) : Str := s.takeWhile (· ≠ ' ')

def skipWord (s : Str) : Str := s.dropWhile (· ≠ ' ')

def skipBlanks (s : Str) : Str := s.dropWhile (· = ' ')

def interpreters : List Str :=
  ["perl", "python", "python2", "python3", "ruby", "wish", "tclsh", "lua", "node", "sh", "bash", "dash", "zsh",
    "ksh", "csh", "tcsh", "env", "awk", "gawk", "mawk", "nawk", "sed", "gsed", "m4", "gm4", "java", "groovy",
    "gradle", "cmake", "ctest", "php"].map String.toList

def codeFirstInterpreters : List Str := ["awk", "gawk", "mawk", "nawk", "sed", "gsed"].map String.toList

def shells : List Str := ["sh", "bash", "dash", "zsh", "ksh", "csh", "tcsh"].map String.toList

/-- Flags that take the next word as their argument, outside shells. -/
def argumentFlags : List Str := ["-I", "-m", "-M", "-x", "-W", "-X", "-o", "-O"].map String.toList

theorem length_skipWord_le (s : Str) : (skipWord s).length ≤ s.length := (List.dropWhile_sublist _).length_le

theorem length_skipBlanks_le (s : Str) : (skipBlanks s).length ≤ s.length := (List.dropWhile_sublist _).length_le

/-- After blanks are skipped a word is not empty. -/
theorem length_skipWord_lt {s rest : Str} {c : Char} (h : skipBlanks s = c :: rest) :
    (skipWord (c :: rest)).length < s.length := by
  have hc : c ≠ ' ' := by
    have hhead := List.head?_dropWhile_not (· = ' ') s
    rw [skipBlanks] at h
    simpa [h] using hhead
  have hword : skipWord (c :: rest) = skipWord rest := by simp [skipWord, hc]
  have hlen := length_skipBlanks_le s
  rw [h, List.length_cons] at hlen
  rw [hword]
  have := length_skipWord_le rest
  omega

/-- What is left of the arguments of `env` after its flags and assignments. -/
def skipEnvArguments (s : Str) : Str :=
  match _h : skipBlanks s with
  | [] => []
  | c :: rest =>
    if c = '-' ∨ '=' ∈ word (c :: rest) then skipEnvArguments (skipWord (c :: rest)) else c :: rest
termination_by s.length
decreasing_by exact length_skipWord_lt _h

theorem length_skipEnvArguments_le (s : Str) : (skipEnvArguments s).length ≤ s.length := by
  induction s using skipEnvArguments.induct with
  | case1 s h =>
    rw [skipEnvArguments]
    split <;> simp_all
  | case2 s c rest h hflag ih =>
    have := length_skipWord_lt h
    rw [skipEnvArguments]
    split <;> simp_all
    omega
  | case3 s c rest h hflag =>
    have := length_skipBlanks_le s
    rw [skipEnvArguments]
    split <;> simp_all

/-- The base name of a script word, or the interpreter when it is empty. -/
def scriptBase (exe s : Str) : Str := if basenameOf (word s) = [] then exe else basenameOf (word s)

/-- The script of `awk` and `sed`, which only `-f` names. -/
def codeFirstName (exe s : Str) : Str :=
  match _h : skipBlanks s with
  | [] => exe
  | c :: rest =>
    if c ≠ '-' then exe
    else if word (c :: rest) = "-f".toList then
      match skipBlanks (skipWord (c :: rest)) with
      | [] => exe
      | script => scriptBase exe script
    else codeFirstName exe (skipWord (c :: rest))
termination_by s.length
decreasing_by exact length_skipWord_lt _h

/-- The first argument of an interpreter that is not a flag. -/
def scriptName (shell : Bool) (exe s : Str) : Str :=
  match _h : skipBlanks s with
  | [] => exe
  | c :: rest =>
    if c ≠ '-' then scriptBase exe (c :: rest)
    else
      let flag := word (c :: rest)
      -- inline code follows
      if flag = "-c".toList ∨ (!shell ∧ flag = "-e".toList) then exe
      else if !shell ∧ flag ∈ argumentFlags then scriptName shell exe (skipWord (skipBlanks (skipWord (c :: rest))))
      else scriptName shell exe (skipWord (c :: rest))
termination_by s.length
decreasing_by
  · exact (length_skipWord_le _).trans_lt ((length_skipBlanks_le _).trans_lt (length_skipWord_lt _h))
  · exact length_skipWord_lt _h

def cmdName (cmdline : Str) : Str :=
  let exe := basenameOf (word cmdline)
  match _h : skipWord cmdline with
  | [] => exe
  | _ :: rest =>
    if exe ∉ interpreters then exe
    else if exe = "env".toList then
      match _he : skipEnvArguments rest with
      | [] => exe
      | c :: cs => cmdName (c :: cs)
    else if exe ∈ codeFirstInterpreters then codeFirstName exe rest
    else scriptName (exe ∈ shells) exe rest
termination_by cmdline.length
decreasing_by
  have hw := length_skipWord_le cmdline
  have henv := length_skipEnvArguments_le rest
  rw [_h, List.length_cons] at hw
  rw [_he] at henv
  omega

end Bdtrace
