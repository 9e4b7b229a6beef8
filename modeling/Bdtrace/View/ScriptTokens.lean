import Bdtrace.View.CommandName

/-! The script of a command line as a path, beside its short name. -/
namespace Bdtrace

/-- The script word of `awk` and `sed`. -/
def codeFirstToken (s : Str) : Str :=
  match _h : skipBlanks s with
  | [] => []
  | c :: rest =>
    if c ≠ '-' then []
    else if word (c :: rest) = "-f".toList then
      match skipBlanks (skipWord (c :: rest)) with
      | [] => []
      | script => word script
    else codeFirstToken (skipWord (c :: rest))
termination_by s.length
decreasing_by exact length_skipWord_lt _h

/-- The script word of the other interpreters. -/
def flagToken (shell : Bool) (s : Str) : Str :=
  match _h : skipBlanks s with
  | [] => []
  | c :: rest =>
    if c ≠ '-' then word (c :: rest)
    else
      let flag := word (c :: rest)
      -- inline code follows
      if flag = "-c".toList ∨ (!shell ∧ flag = "-e".toList) then []
      else if !shell ∧ flag ∈ argumentFlags then flagToken shell (skipWord (skipBlanks (skipWord (c :: rest))))
      else flagToken shell (skipWord (c :: rest))
termination_by s.length
decreasing_by
  · exact (length_skipWord_le _).trans_lt ((length_skipBlanks_le _).trans_lt (length_skipWord_lt _h))
  · exact length_skipWord_lt _h

def scriptToken (cmdline : Str) : Str :=
  match _h : skipWord cmdline with
  | [] => []
  | _ :: rest =>
    let exe := basenameOf (word cmdline)
    if exe ∉ interpreters then []
    else if exe = "env".toList then
      match _he : skipEnvArguments rest with
      | [] => []
      | c :: cs => scriptToken (c :: cs)
    else if exe ∈ codeFirstInterpreters then codeFirstToken rest
    else flagToken (exe ∈ shells) rest
termination_by cmdline.length
decreasing_by
  have hw := length_skipWord_le cmdline
  have henv := length_skipEnvArguments_le rest
  rw [_h, List.length_cons] at hw
  rw [_he] at henv
  omega

def resolvePath (path cwd : Str) : Str :=
  if path = [] then path
  else if path.head? = some '/' then path
  else if cwd = [] then path
  else (if cwd.getLast? ≠ some '/' then cwd ++ ['/'] else cwd) ++ path

def cmdNameFull (cmdline cwd : Str) : Str :=
  let token := scriptToken cmdline
  if token = [] then cmdName cmdline else resolvePath token cwd

/-! ### The command below its `env` wrappers -/

/-- The command that one `env` runs; `none` for another program or a bare `env`. -/
def unwrapEnv (cmdline : Str) : Option Str :=
  match skipWord cmdline with
  | [] => none
  | _ :: rest =>
    if basenameOf (word cmdline) ≠ "env".toList then none
    else
      match skipEnvArguments rest with
      | [] => none
      | c :: cs => some (c :: cs)

/-- The wrapped command is shorter, so no nesting of wrappers goes on for ever. -/
private theorem length_unwrapEnv {cmdline inner : Str} (h : unwrapEnv cmdline = some inner) :
    inner.length < cmdline.length := by
  unfold unwrapEnv at h
  have hw := length_skipWord_le cmdline
  cases hskip : skipWord cmdline with
  | nil => simp [hskip] at h
  | cons b rest =>
    rw [hskip, List.length_cons] at hw
    have henv := length_skipEnvArguments_le rest
    simp only [hskip, ite_not] at h
    split at h
    · split at h
      · cases h
      · rename_i heq
        rw [heq] at henv
        cases h
        omega
    · cases h

/-- The command that is left when every `env` wrapper is taken off. -/
def stripEnv (cmdline : Str) : Str :=
  match _h : unwrapEnv cmdline with
  | none => cmdline
  | some inner => stripEnv inner
termination_by cmdline.length
decreasing_by exact length_unwrapEnv _h

def executable (cmdline : Str) : Str := basenameOf (word (stripEnv cmdline))

theorem stripEnv_unwrap {cmdline inner : Str} (h : unwrapEnv cmdline = some inner) :
    stripEnv cmdline = stripEnv inner := by
  rw [stripEnv]
  split <;> grind

theorem stripEnv_of_unwrap_none {cmdline : Str} (h : unwrapEnv cmdline = none) : stripEnv cmdline = cmdline := by
  rw [stripEnv]
  split <;> grind

theorem executable_unwrap {cmdline inner : Str} (h : unwrapEnv cmdline = some inner) :
    executable cmdline = executable inner := by
  rw [executable, executable, stripEnv_unwrap h]

theorem executable_of_unwrap_none {cmdline : Str} (h : unwrapEnv cmdline = none) :
    executable cmdline = basenameOf (word cmdline) := by
  rw [executable, stripEnv_of_unwrap_none h]

/-! ### One turn of each scanner -/

section Turns
variable {s rest cmdline : Str} {c : Char}

private theorem codeFirstName_cons (exe : Str) (h : skipBlanks s = c :: rest) : codeFirstName exe s =
    if c ≠ '-' then exe
    else if word (c :: rest) = "-f".toList then
      match skipBlanks (skipWord (c :: rest)) with
      | [] => exe
      | script => scriptBase exe script
    else codeFirstName exe (skipWord (c :: rest)) := by
  rw [codeFirstName]
  split <;> grind

private theorem codeFirstToken_cons (h : skipBlanks s = c :: rest) : codeFirstToken s =
    if c ≠ '-' then []
    else if word (c :: rest) = "-f".toList then
      match skipBlanks (skipWord (c :: rest)) with
      | [] => []
      | script => word script
    else codeFirstToken (skipWord (c :: rest)) := by
  rw [codeFirstToken]
  split <;> grind

private theorem scriptName_cons (shell : Bool) (exe : Str) (h : skipBlanks s = c :: rest) : scriptName shell exe s =
    if c ≠ '-' then scriptBase exe (c :: rest)
    else if word (c :: rest) = "-c".toList ∨ (!shell ∧ word (c :: rest) = "-e".toList) then exe
    else if !shell ∧ word (c :: rest) ∈ argumentFlags then
      scriptName shell exe (skipWord (skipBlanks (skipWord (c :: rest))))
    else scriptName shell exe (skipWord (c :: rest)) := by
  rw [scriptName]
  split <;> grind

theorem flagToken_cons (shell : Bool) (h : skipBlanks s = c :: rest) : flagToken shell s =
    if c ≠ '-' then word (c :: rest)
    else if word (c :: rest) = "-c".toList ∨ (!shell ∧ word (c :: rest) = "-e".toList) then []
    else if !shell ∧ word (c :: rest) ∈ argumentFlags then
      flagToken shell (skipWord (skipBlanks (skipWord (c :: rest))))
    else flagToken shell (skipWord (c :: rest)) := by
  rw [flagToken]
  split <;> grind

private theorem cmdName_cons (h : skipWord cmdline = c :: rest) : cmdName cmdline =
    if basenameOf (word cmdline) ∉ interpreters then basenameOf (word cmdline)
    else if basenameOf (word cmdline) = "env".toList then (unwrapEnv cmdline).elim (basenameOf (word cmdline)) cmdName
    else if basenameOf (word cmdline) ∈ codeFirstInterpreters then codeFirstName (basenameOf (word cmdline)) rest
    else scriptName (basenameOf (word cmdline) ∈ shells) (basenameOf (word cmdline)) rest := by
  rw [cmdName]
  split
  · rename_i heq
    rw [h] at heq
    cases heq
  · rename_i heq
    rw [h] at heq
    obtain ⟨rfl, rfl⟩ := List.cons.inj heq
    refine if_congr Iff.rfl rfl ?_
    split
    · rename_i henv
      rw [unwrapEnv, h]
      simp only [henv, ne_eq, not_true_eq_false, if_false]
      split <;> rename_i hargs <;> simp [hargs]
    · rfl

theorem scriptToken_cons (h : skipWord cmdline = c :: rest) : scriptToken cmdline =
    if basenameOf (word cmdline) ∉ interpreters then []
    else if basenameOf (word cmdline) = "env".toList then (unwrapEnv cmdline).elim [] scriptToken
    else if basenameOf (word cmdline) ∈ codeFirstInterpreters then codeFirstToken rest
    else flagToken (basenameOf (word cmdline) ∈ shells) rest := by
  rw [scriptToken]
  split
  · rename_i heq
    rw [h] at heq
    cases heq
  · rename_i heq
    rw [h] at heq
    obtain ⟨rfl, rfl⟩ := List.cons.inj heq
    refine if_congr Iff.rfl rfl ?_
    split
    · rename_i henv
      rw [unwrapEnv, h]
      simp only [henv, ne_eq, not_true_eq_false, if_false]
      split <;> rename_i hargs <;> simp [hargs]
    · rfl

/-- Only `env` is unwrapped. -/
private theorem name_of_unwrap {inner : Str} (h : unwrapEnv cmdline = some inner) :
    basenameOf (word cmdline) = "env".toList ∧ ∃ c rest, skipWord cmdline = c :: rest := by
  unfold unwrapEnv at h
  cases hskip : skipWord cmdline with
  | nil => simp [hskip] at h
  | cons c rest =>
    refine ⟨?_, c, rest, rfl⟩
    by_contra hne
    simp only [hskip, ne_eq, hne, not_false_eq_true, if_true, reduceCtorEq] at h

private theorem env_mem_interpreters : "env".toList ∈ interpreters := by decide

private theorem cmdName_unwrap {inner : Str} (h : unwrapEnv cmdline = some inner) :
    cmdName cmdline = cmdName inner := by
  obtain ⟨henv, c, rest, hskip⟩ := name_of_unwrap h
  rw [cmdName_cons hskip, henv, if_neg (not_not.mpr env_mem_interpreters), if_pos rfl, h]
  rfl

theorem scriptToken_unwrap {inner : Str} (h : unwrapEnv cmdline = some inner) :
    scriptToken cmdline = scriptToken inner := by
  obtain ⟨henv, c, rest, hskip⟩ := name_of_unwrap h
  rw [scriptToken_cons hskip, henv, if_neg (not_not.mpr env_mem_interpreters), if_pos rfl, h]
  rfl

end Turns

/-! ### Both scanners find the same -/

/-- The base name of a token, or the name of its interpreter when it is empty. -/
def baseOr (exe token : Str) : Str := if basenameOf token = [] then exe else basenameOf token

private theorem baseOr_nil (exe : Str) : baseOr exe [] = exe := rfl

private theorem codeFirstName_eq (exe s : Str) : codeFirstName exe s = baseOr exe (codeFirstToken s) := by
  induction s using codeFirstToken.induct with
  | case1 s h =>
    rw [codeFirstName, codeFirstToken]
    split <;> grind [baseOr_nil]
  | case2 s c rest h hc => rw [codeFirstName_cons exe h, codeFirstToken_cons h, if_pos hc, if_pos hc, baseOr_nil]
  | case3 s c rest h hc hf hnone =>
    rw [codeFirstName_cons exe h, codeFirstToken_cons h, if_neg hc, if_neg hc, if_pos hf, if_pos hf, hnone]
    rfl
  | case4 s c rest h hc hf hsome =>
    rw [codeFirstName_cons exe h, codeFirstToken_cons h, if_neg hc, if_neg hc, if_pos hf, if_pos hf]
    cases hscript : skipBlanks (skipWord (c :: rest)) with
    | nil => exact absurd hscript hsome
    | cons d script => rfl
  | case5 s c rest h hc hf ih =>
    rw [codeFirstName_cons exe h, codeFirstToken_cons h, if_neg hc, if_neg hc, if_neg hf, if_neg hf, ih]

private theorem scriptName_eq (shell : Bool) (exe s : Str) :
    scriptName shell exe s = baseOr exe (flagToken shell s) := by
  induction s using flagToken.induct shell with
  | case1 s h =>
    rw [scriptName, flagToken]
    split <;> grind [baseOr_nil]
  | case2 s c rest h hc =>
    rw [scriptName_cons shell exe h, flagToken_cons shell h, if_pos hc, if_pos hc]
    rfl
  | case3 s c rest h hc flag hinline =>
    rw [scriptName_cons shell exe h, flagToken_cons shell h, if_neg hc, if_neg hc, if_pos hinline,
      if_pos hinline, baseOr_nil]
  | case4 s c rest h hc flag hinline harg ih =>
    rw [scriptName_cons shell exe h, flagToken_cons shell h, if_neg hc, if_neg hc, if_neg hinline, if_neg hinline,
      if_pos harg, if_pos harg, ih]
  | case5 s c rest h hc flag hinline harg ih =>
    rw [scriptName_cons shell exe h, flagToken_cons shell h, if_neg hc, if_neg hc, if_neg hinline, if_neg hinline,
      if_neg harg, if_neg harg, ih]

theorem cmdName_eq (cmdline : Str) : cmdName cmdline = baseOr (executable cmdline) (scriptToken cmdline) := by
  induction cmdline using stripEnv.induct with
  | case1 cmdline hnone =>
    rw [executable_of_unwrap_none hnone]
    cases hskip : skipWord cmdline with
    | nil =>
      rw [cmdName, scriptToken]
      split <;> grind [baseOr_nil]
    | cons c rest =>
      rw [cmdName_cons hskip, scriptToken_cons hskip, hnone]
      split_ifs
      · rfl
      · exact codeFirstName_eq _ _
      · exact scriptName_eq _ _ _
      · rfl
  | case2 cmdline inner hsome ih =>
    rw [executable_unwrap hsome, cmdName_unwrap hsome, scriptToken_unwrap hsome]
    exact ih

/-! ### Base names of resolved paths -/

private theorem basenameOf_append_slash (dir path : Str) : basenameOf (dir ++ '/' :: path) = basenameOf path := by
  rw [basenameOf, basenameOf, List.reverse_append, List.reverse_cons, List.append_assoc, List.takeWhile_append]
  split
  · rename_i hall
    rw [List.takeWhile_prefix _ |>.eq_of_length hall]
    simp
  · rfl

private theorem basenameOf_resolvePath (path cwd : Str) : basenameOf (resolvePath path cwd) = basenameOf path := by
  unfold resolvePath
  split_ifs with _ _ _ hslash
  · rfl
  · rfl
  · rfl
  · rw [List.append_assoc, List.singleton_append, basenameOf_append_slash]
  · rw [not_not] at hslash
    obtain ⟨dir, rfl⟩ := List.getLast?_eq_some_iff.mp hslash
    rw [List.append_assoc, List.singleton_append, basenameOf_append_slash]

/-- The short name is the base name of the script, and so is that of the full name; without a script it is the
program's below its wrappers. Each wrapper leaves less text, so both scans end. -/
theorem cmdName_scriptToken (cmdline cwd : Str) :
    (∀ inner, unwrapEnv cmdline = some inner → inner.length < cmdline.length) ∧
    (basenameOf (scriptToken cmdline) ≠ [] → cmdName cmdline = basenameOf (scriptToken cmdline) ∧
      basenameOf (cmdNameFull cmdline cwd) = basenameOf (scriptToken cmdline)) ∧
    (scriptToken cmdline = [] → cmdName cmdline = executable cmdline) := by
  refine ⟨fun inner => length_unwrapEnv, fun hbase => ⟨?_, ?_⟩, fun hnone => ?_⟩
  · rw [cmdName_eq, baseOr, if_neg hbase]
  · have htoken : scriptToken cmdline ≠ [] := by
      intro hnone
      rw [hnone] at hbase
      exact hbase rfl
    rw [cmdNameFull, if_neg htoken, basenameOf_resolvePath]
  · rw [cmdName_eq, hnone, baseOr_nil]

theorem cmdName_scriptToken_env :
    cmdName "env -i CC=gcc /usr/bin/env perl -I lib util/gen.pl x".toList = "gen.pl".toList := by
  have h := (cmdName_scriptToken "env -i CC=gcc /usr/bin/env perl -I lib util/gen.pl x".toList "/build".toList).2.1
    (by decide +kernel)
  rw [h.1]
  decide +kernel

end Bdtrace
