import Xv6.Shell.Grammar

/-!
Contract: `parsecmd` accepts the grammar of the shell, and nothing else.

Owns: the strings that the tree points to once `nulterminate` has run, and the result for whole
lines.

Does not own: the single parse functions.
-/

namespace Xv6.Shell

open Xv6.Format

/-! ## `nulterminate` -/

section Strings

variable {line : List Byte} {cmd : Cmd Word} {word : Word} {i : Nat}

theorem nulterminate_of_ne {buffer : Bytes} (other : ∀ word ∈ cmd.words, word.eq ≠ i) :
    nulterminate cmd buffer i = buffer i := by
  induction cmd generalizing buffer with
  | exec argv =>
      have other : ∀ word ∈ argv, word.eq ≠ i := other
      rw [nulterminate]
      induction argv generalizing buffer with
      | nil => rfl
      | cons word argv ih =>
          obtain ⟨notHere, later⟩ := List.forall_mem_cons.mp other
          rw [List.foldl_cons, ih later later,
            Function.update_of_ne (Ne.symm notHere)]
  | redir cmd r ih =>
      obtain ⟨notHere, later⟩ := List.forall_mem_cons.mp other
      rw [nulterminate, Function.update_of_ne (Ne.symm notHere), ih later]
  | pipe left right leftHypothesis rightHypothesis
  | list left right leftHypothesis rightHypothesis =>
      obtain ⟨ofLeft, ofRight⟩ := List.forall_mem_append.mp other
      rw [nulterminate, rightHypothesis ofRight, leftHypothesis ofLeft]
  | back cmd ih => exact ih other

theorem nulterminate_eq_zero {buffer : Bytes}
    (isEnd : buffer i = 0 ∨ ∃ word ∈ cmd.words, word.eq = i) : nulterminate cmd buffer i = 0 := by
  induction cmd generalizing buffer with
  | exec argv =>
      have isEnd : buffer i = 0 ∨ ∃ word ∈ argv, word.eq = i := isEnd
      rw [nulterminate]
      induction argv generalizing buffer with
      | nil => simpa using isEnd
      | cons word argv ih =>
          have step : Function.update buffer word.eq 0 i = 0 ∨ ∃ word ∈ argv, word.eq = i := by
            by_cases isHere : word.eq = i
            · exact .inl (isHere ▸ Function.update_self ..)
            · rw [Function.update_of_ne (Ne.symm isHere)]
              simpa [isHere] using isEnd
          exact ih step step
  | redir cmd r ih =>
      rw [nulterminate]
      by_cases isHere : r.file.eq = i
      · exact isHere ▸ Function.update_self ..
      · rw [Function.update_of_ne (Ne.symm isHere)]
        refine ih ?_
        simpa [Cmd.words, isHere] using isEnd
  | pipe left right leftHypothesis rightHypothesis
  | list left right leftHypothesis rightHypothesis =>
      rw [nulterminate]
      refine rightHypothesis ?_
      rcases isEnd with isNul | ⟨word, member, isHere⟩
      · exact .inl (leftHypothesis (.inl isNul))
      · rcases List.mem_append.mp member with ofLeft | ofRight
        · exact .inl (leftHypothesis (.inr ⟨word, ofLeft, isHere⟩))
        · exact .inr ⟨word, ofRight, isHere⟩
  | back cmd ih => exact ih isEnd

theorem cstring_eq {w : List Byte} {p : Bytes} {n : Nat}
    (same : ∀ i, i < w.length → p i = w.getD i 0)
    (nulFree : ∀ c ∈ w, c ≠ 0) (ends : p w.length = 0) (short : w.length ≤ n) :
    Fs.cstring p n = w := by
  induction w generalizing p n with
  | nil =>
      cases n with
      | zero => rfl
      | succ n => exact if_pos ends
  | cons c w ih =>
      cases n with
      | zero => exact absurd short (Nat.not_succ_le_zero _)
      | succ n =>
          have isFirst : p 0 = c := same 0 (Nat.succ_pos _)
          rw [Fs.cstring, isFirst, if_neg (nulFree c List.mem_cons_self)]
          congr 1
          exact ih (fun i inWord => same (i + 1) (Nat.succ_lt_succ inWord))
            (fun d member => nulFree d (List.mem_cons_of_mem _ member)) ends
            (Nat.le_of_succ_le_succ short)

theorem Word.Proper.getElem (proper : word.Proper line) (inWord : i < (word.text line).length) :
    (line)[word.q + i]? = some ((word.text line).get ⟨i, inWord⟩) := by
  rw [← List.getElem?_drop, proper.isPrefix, List.getElem?_append_left inWord]
  exact List.getElem?_eq_getElem inWord

theorem Word.Proper.end_not_mem {other : Word} (proper : word.Proper line)
    (properOther : other.Proper line) : ¬ (word.q ≤ other.eq ∧ other.eq < word.eq) := by
  rintro ⟨behind, before⟩
  have inWord : other.eq - word.q < (word.text line).length := by
    have isLength := proper.length
    omega
  have isByte := proper.getElem inWord
  rw [Nat.add_sub_cancel' behind] at isByte
  have outside := properOther.ends
  rw [List.head?_drop, isByte] at outside
  have notWord := outside _ rfl
  rw [proper.isWord _ (List.get_mem ..)] at notWord
  cases notWord

/-- **The pointers of the tree point to its words** when `nulterminate` has run. -/
theorem read_nulterminate (nulFree : ∀ c ∈ line, c ≠ 0) (proper : cmd.Proper line)
    (isWord : word ∈ cmd.words) :
    word.read line (nulterminate cmd fun i => line.getD i 0) = word.text line := by
  have ofWord := proper word isWord
  have within : ∀ c ∈ word.text line, c ∈ line :=
    fun c member => List.mem_of_mem_drop (List.mem_of_mem_take member)
  refine cstring_eq (fun i inWord => ?_) (fun c member => nulFree c (within c member)) ?_ ?_
  · have isByte := ofWord.getElem inWord
    have notEnd : ∀ other ∈ cmd.words, other.eq ≠ word.q + i := by
      intro other isOther same
      refine ofWord.end_not_mem (proper other isOther) ?_
      have isLength := ofWord.length
      omega
    rw [nulterminate_of_ne notEnd, List.getD_eq_getElem?_getD, isByte,
      List.getD_eq_getElem?_getD, List.getElem?_eq_getElem inWord]
    rfl
  · refine nulterminate_eq_zero (.inr ⟨word, isWord, ?_⟩)
    exact ofWord.length.symm
  · rw [Word.text]
    rw [List.length_take, List.length_drop]
    omega

theorem map_congr {V : Type} {f g : Word → V} (same : ∀ word ∈ cmd.words, f word = g word) :
    cmd.map f = cmd.map g := by
  induction cmd with
  | exec argv => exact congrArg Cmd.exec (List.map_congr_left same)
  | redir cmd r ih =>
      obtain ⟨ofFile, later⟩ := List.forall_mem_cons.mp same
      rw [Cmd.map, Cmd.map, ih later, Redir.map, Redir.map, ofFile]
  | pipe left right leftHypothesis rightHypothesis
  | list left right leftHypothesis rightHypothesis =>
      obtain ⟨ofLeft, ofRight⟩ := List.forall_mem_append.mp same
      rw [Cmd.map, Cmd.map, leftHypothesis ofLeft, rightHypothesis ofRight]
  | back cmd ih => exact congrArg Cmd.back (ih same)

end Strings

/-! ## Whole lines -/

theorem parsecmd_eq (fuel : Nat) (line : List Byte) :
    parsecmd fuel line = parseline line fuel 0 >>= fun p =>
      if (peek line p.2 []).2 ≠ line.length then .panic .leftovers
      else .ok (p.1, nulterminate p.1 fun i => line.getD i 0) := rfl

/-- **`parsecmd` accepts exactly the grammar.** For every line without NUL it returns a tree if and
only if the tokens of the line derive from `Line`, with the tree of the derivation, whose words the
pointers of the tree point to; and otherwise it panics. -/
theorem parsecmd_accepts_grammar (line : List Byte) (nulFree : ∀ c ∈ line, c ≠ 0) (fuel : Nat)
    (enough : 4 * (tokens line).length + 4 ≤ fuel) :
    (∀ tree, (∃ cmd buffer, parsecmd fuel line = .ok (cmd, buffer) ∧
        cmd.map (Word.read line buffer) = tree) ↔ Line (tokens line) tree) ∧
      ((∀ tree, ¬ Line (tokens line) tree) → ∃ reason, parsecmd fuel line = .panic reason) := by
  have place : At line 0 (tokens line) := ⟨Nat.zero_le _, rfl⟩
  have spec := (parse_spec nulFree fuel 0 (tokens line) place).1 enough
  rw [parsecmd_eq]
  match parseline line fuel 0, spec with
  | .panic reason, noneDerived =>
      have rejected : ∀ tree, ¬ Line (tokens line) tree :=
        fun tree => noneDerived _ [] tree (List.append_nil _).symm (.inl rfl)
      refine ⟨fun tree => ⟨?_, fun derived => absurd derived (rejected tree)⟩,
        fun _ => ⟨reason, rfl⟩⟩
      rintro ⟨cmd, buffer, isOk, -⟩
      cases isOk
  | .ok (cmd, s), ⟨good, us, rest, isTokens, place', derived, unique⟩ =>
      have ends := place'.leftovers
      have outcome : (Outcome.ok (cmd, s) >>= fun p =>
          if (peek line p.2 []).2 ≠ line.length then .panic .leftovers
          else .ok (p.1, nulterminate p.1 fun i => line.getD i 0)) =
          if (peek line s []).2 ≠ line.length then .panic .leftovers
          else .ok (cmd, nulterminate cmd fun i => line.getD i 0) := rfl
      rw [outcome]
      by_cases isEnd : rest = []
      · rw [if_neg (fun other => other (ends.mpr isEnd))]
        rw [isEnd, List.append_nil] at isTokens
        have isRead : cmd.map (Word.read line (nulterminate cmd fun i => line.getD i 0)) =
            cmd.read line := map_congr fun word isWord => read_nulterminate nulFree good isWord
        refine ⟨fun tree => ⟨?_, fun derived' => ⟨_, _, rfl, ?_⟩⟩,
          fun rejected => absurd (isTokens ▸ derived) (rejected _)⟩
        · rintro ⟨cmd', buffer, isOk, rfl⟩
          cases isOk
          rw [isRead, isTokens]
          exact derived
        · rw [isRead]
          exact (unique _ [] tree (List.append_nil _).symm (.inl rfl) derived').2.symm
      · rw [if_pos (mt ends.mp isEnd)]
        -- The one derivation does not reach the end.
        have rejected : ∀ tree, ¬ Line (tokens line) tree := by
          intro tree derived'
          obtain ⟨isAll, -⟩ := unique _ [] tree (List.append_nil _).symm (.inl rfl) derived'
          rw [← isAll] at isTokens
          exact isEnd (List.self_eq_append_right.mp isTokens)
        refine ⟨fun tree => ⟨?_, fun derived' => absurd derived' (rejected tree)⟩,
          fun _ => ⟨_, rfl⟩⟩
        rintro ⟨cmd', buffer, isOk, -⟩
        cases isOk

/-- `a >x b|(c&);` -/
theorem parsecmd_accepts_grammar_block :
    Line (tokens (['a', ' ', '>', 'x', ' ', 'b', '|', '(', 'c', '&', ')', ';'].map chr))
      (.list (.pipe (.redir (.exec [[chr 'a'], [chr 'b']]) ⟨[chr 'x'], 0x601, 1⟩)
        (.back (.exec [[chr 'c']]))) (.exec [])) := by
  refine ((parsecmd_accepts_grammar _ (by decide) 60 (by decide +kernel)).1 _).mp ?_
  exact ⟨_, _, rfl, by decide +kernel⟩

end Xv6.Shell
