import Xv6.Shell.Accept

/-!
Contract: the strings of a command after `nulterminate` (`user/sh.c`).

Owns: where the words of a tree come from, and that no NUL is written into a word.

Does not own: which lines are accepted. Nothing here depends on the bound of the recursion.
-/

namespace Xv6.Shell

open Xv6.Format

/-! ## What a parse function returns -/

def Outcome.Yields {α : Type} (P : α → Prop) (outcome : Outcome α) : Prop :=
  ∀ result, outcome = .ok result → P result

section Yields

variable {α β : Type} {P : α → Prop} {Q : β → Prop}

theorem yields_ok {result : α} (holds : P result) : (Outcome.ok result).Yields P := by
  intro result' isOk
  cases isOk
  exact holds

theorem yields_panic (reason : Panic) : (Outcome.panic reason : Outcome α).Yields P := by
  intro result isOk
  cases isOk

theorem yields_timeout : (Outcome.timeout : Outcome α).Yields P := by
  intro result isOk
  cases isOk

theorem Outcome.Yields.bind {outcome : Outcome α} {next : α → Outcome β} (yields : outcome.Yields P)
    (later : ∀ result, P result → (next result).Yields Q) : (outcome >>= next).Yields Q := by
  match outcome, yields with
  | .ok result, yields => exact later result (yields result rfl)
  | .panic reason, _ => exact yields_panic reason
  | .timeout, _ => exact yields_timeout

end Yields

/-! ## The words of a tree are tokens -/

/-- `gettoken` returned 'a' with these pointers. -/
def Word.IsToken (line : List Byte) (word : Word) : Prop :=
  ∃ s, (gettoken line s).1 = .a ∧ (gettoken line s).2.1 = word

section Tokens

variable {line : List Byte} {redirs : List (Redir Word)} {cmd : Cmd Word}

/-- The files of the redirections are tokens. -/
def FromTokens (line : List Byte) (redirs : List (Redir Word)) : Prop :=
  ∀ r ∈ redirs, r.file.IsToken line

/-- The words of the command are tokens. -/
def Cmd.FromTokens (line : List Byte) (cmd : Cmd Word) : Prop :=
  ∀ word ∈ cmd.words, word.IsToken line

theorem fromTokens_nil : FromTokens line [] := fun _ member => absurd member List.not_mem_nil

theorem Cmd.FromTokens.foldl (ofCmd : cmd.FromTokens line)
    (ofRedirs : Shell.FromTokens line redirs) :
    (redirs.foldl Cmd.redir cmd).FromTokens line := by
  induction redirs generalizing cmd with
  | nil => exact ofCmd
  | cons r redirs ih =>
      obtain ⟨ofFile, ofRest⟩ := List.forall_mem_cons.mp ofRedirs
      exact ih (List.forall_mem_cons.mpr ⟨ofFile, ofCmd⟩) ofRest

theorem Cmd.FromTokens.append {left right : Cmd Word} (ofLeft : left.FromTokens line)
    (ofRight : right.FromTokens line) : ∀ word ∈ left.words ++ right.words, word.IsToken line :=
  List.forall_mem_append.mpr ⟨ofLeft, ofRight⟩

theorem redircmd_file {tok : Tok} {file : Word} {r : Redir Word} (isRedir : r ∈ redircmd tok file) :
    r.file = file := by
  unfold redircmd at isRedir
  split at isRedir
  case h_4 => exact absurd isRedir List.not_mem_nil
  all_goals rw [List.mem_singleton.mp isRedir]

theorem parseredirs_tokens (fuel : Nat) (s : Nat) (ofRedirs : FromTokens line redirs) :
    (parseredirs line fuel redirs s).Yields fun p => FromTokens line p.1 := by
  induction fuel generalizing redirs s with
  | zero => exact yields_timeout
  | succ fuel ih =>
      rw [parseredirs_succ]
      split
      · split
        · exact yields_panic _
        · next isWord =>
          refine ih _ (List.forall_mem_append.mpr ⟨ofRedirs, fun r isRedir => ?_⟩)
          exact ⟨_, not_not.mp isWord, (redircmd_file isRedir).symm⟩
      · exact yields_ok ofRedirs

theorem parseargs_tokens (fuel : Nat) {argv : List Word} (s : Nat)
    (ofArgv : ∀ word ∈ argv, word.IsToken line) (ofRedirs : FromTokens line redirs) :
    (parseargs line fuel argv redirs s).Yields fun p =>
      (∀ word ∈ p.1.1, word.IsToken line) ∧ FromTokens line p.1.2 := by
  induction fuel generalizing argv redirs s with
  | zero => exact yields_timeout
  | succ fuel ih =>
      rw [parseargs_succ]
      split
      · exact yields_ok ⟨ofArgv, ofRedirs⟩
      · split
        · exact yields_ok ⟨ofArgv, ofRedirs⟩
        · exact yields_panic _
        · next isWord =>
          have ofArgv' := List.forall_mem_append.mpr
            ⟨ofArgv, List.forall_mem_singleton.mpr ⟨_, isWord, rfl⟩⟩
          split
          · exact yields_panic _
          · exact (parseredirs_tokens fuel _ ofRedirs).bind fun p ofRedirs' =>
              ih _ ofArgv' ofRedirs'

theorem parsebacks_tokens (fuel : Nat) (s : Nat) (ofCmd : cmd.FromTokens line) :
    (parsebacks line fuel cmd s).Yields fun p => p.1.FromTokens line := by
  induction fuel generalizing cmd s with
  | zero => exact yields_timeout
  | succ fuel ih =>
      rw [parsebacks_succ]
      split
      · exact ih _ ofCmd
      · exact yields_ok ofCmd

/-- Every word that a parse function puts into a tree is a token. -/
theorem parse_tokens (fuel : Nat) : ∀ s,
    ((parseline line fuel s).Yields fun p => p.1.FromTokens line) ∧
      ((parsepipe line fuel s).Yields fun p => p.1.FromTokens line) ∧
      ((parseexec line fuel s).Yields fun p => p.1.FromTokens line) ∧
      (parseblock line fuel s).Yields fun p => p.1.FromTokens line := by
  induction fuel with
  | zero => exact fun s => ⟨yields_timeout, yields_timeout, yields_timeout, yields_timeout⟩
  | succ fuel ih =>
      have lines := fun s => (ih s).1
      have pipes := fun s => (ih s).2.1
      have execs := fun s => (ih s).2.2.1
      have blocks := fun s => (ih s).2.2.2
      refine fun s => ⟨?_, ?_, ?_, ?_⟩
      · rw [parseline_succ]
        refine (pipes s).bind fun p ofPipe =>
          (parsebacks_tokens fuel _ ofPipe).bind fun q ofCmd => ?_
        split
        · exact (lines _).bind fun r ofRight => yields_ok (ofCmd.append ofRight)
        · exact yields_ok ofCmd
      · rw [parsepipe_succ]
        refine (execs s).bind fun p ofCmd => ?_
        split
        · exact (pipes _).bind fun q ofRight => yields_ok (ofCmd.append ofRight)
        · exact yields_ok ofCmd
      · rw [parseexec_succ]
        split
        · exact blocks _
        · exact (parseredirs_tokens fuel _ fromTokens_nil).bind fun p ofRedirs =>
            (parseargs_tokens fuel _ (fun _ member => absurd member List.not_mem_nil) ofRedirs).bind
              fun q ⟨ofArgv, ofRedirs'⟩ => yields_ok (Cmd.FromTokens.foldl ofArgv ofRedirs')
      · rw [parseblock_succ]
        split
        · refine (lines _).bind fun p ofCmd => ?_
          split
          · exact (parseredirs_tokens fuel _ fromTokens_nil).bind fun q ofRedirs =>
              yields_ok (ofCmd.foldl ofRedirs)
          · exact yields_panic _
        · exact yields_panic _

/-- A tree of `parsecmd` has tokens for words, and its buffer comes from `nulterminate`. -/
theorem parsecmd_tokens (fuel : Nat) (line : List Byte) :
    (parsecmd fuel line).Yields fun p =>
      p.1.FromTokens line ∧ p.2 = nulterminate p.1 fun i => line.getD i 0 := by
  rw [parsecmd_eq]
  refine (parse_tokens fuel 0).1.bind fun p ofCmd => ?_
  split
  · exact yields_panic _
  · exact yields_ok ⟨ofCmd, rfl⟩

theorem Word.IsToken.proper {word : Word} (nulFree : ∀ c ∈ line, c ≠ 0)
    (isToken : word.IsToken line) : word.Proper line := by
  obtain ⟨s, isWord, rfl⟩ := isToken
  rcases gettoken_spec nulFree s with ⟨isZero, -⟩ | ⟨x, isSymbol, -⟩ | ⟨-, proper, -⟩
  · rw [isWord] at isZero
    cases isZero
  · rw [isWord] at isSymbol
    cases isSymbol
  · exact proper

end Tokens

/-! ## The strings -/

/-- **The strings survive.** Whenever `parsecmd` returns a tree, each string of it, an argument or
the file of a redirection, is a token of the line; the buffer has a NUL behind it; read as a C
string it is the text of the token in the line; and the NUL of no string lies in it. -/
theorem strings_survive (line : List Byte) (nulFree : ∀ c ∈ line, c ≠ 0) (fuel : Nat)
    (cmd : Cmd Word) (buffer : Bytes) (parsed : parsecmd fuel line = .ok (cmd, buffer)) :
    ∀ word ∈ cmd.words, word.IsToken line ∧ buffer word.eq = 0 ∧
      word.read line buffer = word.text line ∧
      ∀ other ∈ cmd.words, ¬ (word.q ≤ other.eq ∧ other.eq < word.eq) := by
  obtain ⟨ofTokens, isBuffer⟩ := parsecmd_tokens fuel line _ parsed
  dsimp only at ofTokens isBuffer
  subst isBuffer
  have proper : cmd.Proper line := fun word isWord => (ofTokens word isWord).proper nulFree
  intro word isWord
  refine ⟨ofTokens word isWord, nulterminate_eq_zero (.inr ⟨word, isWord, rfl⟩),
    read_nulterminate nulFree proper isWord, fun other isOther => ?_⟩
  exact (proper word isWord).end_not_mem (proper other isOther)

/-- `a>x;b`: the NULs replace the two symbols. -/
theorem strings_survive_symbols :
    ∃ cmd buffer, parsecmd 30 (['a', '>', 'x', ';', 'b'].map chr) = .ok (cmd, buffer) ∧
      cmd.words = [⟨2, 3⟩, ⟨0, 1⟩, ⟨4, 5⟩] ∧
      ∀ word ∈ cmd.words, word.read (['a', '>', 'x', ';', 'b'].map chr) buffer =
        word.text (['a', '>', 'x', ';', 'b'].map chr) := by
  refine ⟨_, _, rfl, by decide +kernel, fun word isWord => ?_⟩
  exact (strings_survive _ (by decide) 30 _ _ rfl word isWord).2.2.1

end Xv6.Shell
