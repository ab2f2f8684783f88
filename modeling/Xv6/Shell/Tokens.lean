import Xv6.Shell.Parser

/-!
Contract: the tokens of a line, and `gettoken` and `peek` in terms of them.

Owns: the scan of a line into words and symbols, the tokens from an offset on, and the words that
the offsets of a token enclose.

Does not own: the grammar.
-/

namespace Xv6.Shell

open Xv6.Format

inductive Token where
  | word (w : List Byte)
  | symbol (x : Symbol)
deriving DecidableEq

def flush (w : List Byte) : List Token :=
  if w = [] then [] else [.word w]

/-- The tokens of a line, where `w` is the word that ends at its start. -/
def scan (w : List Byte) : List Byte → List Token
  | [] => flush w
  | c :: rest =>
      if isBlank c then flush w ++ scan [] rest
      else if c = chr '>' then
        match rest with
        | [] => flush w ++ [.symbol .greater]
        | c' :: rest =>
            if c' = chr '>' then flush w ++ .symbol .append :: scan [] rest
            else flush w ++ .symbol .greater :: scan [] (c' :: rest)
      else
        match Symbol.ofByte c with
        | some x => flush w ++ .symbol x :: scan [] rest
        | none => scan (w ++ [c]) rest

/-- **The token sequence**: words and symbols, separated by whitespace. -/
def tokens (line : List Byte) : List Token :=
  scan [] line

section Scan

variable {c c' : Byte} {w u r : List Byte} {x : Symbol}

theorem tokens_blank (blank : isBlank c = true) : tokens (c :: r) = tokens r := by
  cases r <;> rw [tokens, scan, if_pos blank] <;> rfl

theorem tokens_dropWhile (r : List Byte) : tokens (r.dropWhile isBlank) = tokens r := by
  induction r with
  | nil => rfl
  | cons c r ih =>
      rw [List.dropWhile_cons]
      split
      · rename_i blank
        rw [ih, tokens_blank blank]
      · rfl

theorem tokens_append : tokens (chr '>' :: chr '>' :: r) = .symbol .append :: tokens r := by
  rw [tokens, scan, if_neg (by decide), if_pos rfl, if_pos rfl]
  rfl

theorem tokens_greater (single : r.head? ≠ some (chr '>')) :
    tokens (chr '>' :: r) = .symbol .greater :: tokens r := by
  cases r with
  | nil =>
      rw [tokens, scan, if_neg (by decide), if_pos rfl]
      rfl
  | cons c' r =>
      have other : c' ≠ chr '>' := fun same => single (by rw [same]; rfl)
      rw [tokens, scan, if_neg (by decide), if_pos rfl, if_neg other]
      rfl

theorem ofByte_mem (isSymbol : Symbol.ofByte c = some x) :
    isBlank c = false ∧ c ≠ chr '>' ∧ c ∈ symbols := by
  unfold Symbol.ofByte at isSymbol
  repeat' split at isSymbol
  all_goals first | (subst c; decide) | cases isSymbol

theorem tokens_symbol (isSymbol : Symbol.ofByte c = some x) :
    tokens (c :: r) = .symbol x :: tokens r := by
  obtain ⟨notBlank, notGreater, -⟩ := ofByte_mem isSymbol
  have notBlank : ¬ isBlank c = true := by rw [notBlank]; decide
  cases r <;> rw [tokens, scan, if_neg notBlank, if_neg notGreater, isSymbol] <;> rfl

/-- A byte of a word is neither a blank nor a symbol. -/
theorem isWordByte_iff (c : Byte) : isWordByte c = true ↔ ¬ isBlank c = true ∧ c ∉ symbols := by
  simp only [isWordByte, isBlank, Bool.and_eq_true, Bool.not_eq_true', List.contains_iff_mem,
    Bool.eq_false_iff, ne_eq]

theorem ofByte_eq_none (isWord : isWordByte c = true) :
    c ≠ chr '>' ∧ Symbol.ofByte c = none := by
  have outside := ((isWordByte_iff c).mp isWord).2
  constructor
  · rintro rfl
    exact outside (by decide)
  · cases isSymbol : Symbol.ofByte c with
    | none => rfl
    | some x => exact absurd (ofByte_mem isSymbol).2.2 outside

theorem scan_word (isWord : isWordByte c = true) : scan w (c :: r) = scan (w ++ [c]) r := by
  have notBlank := ((isWordByte_iff c).mp isWord).1
  obtain ⟨notGreater, notSymbol⟩ := ofByte_eq_none isWord
  cases r <;> conv_lhs => rw [scan, if_neg notBlank, if_neg notGreater, notSymbol]

theorem isSome_ofByte (isSymbol : c ∈ symbols) (notGreater : c ≠ chr '>') :
    ∃ x, Symbol.ofByte c = some x := by
  simp only [symbols, List.mem_cons, List.not_mem_nil, or_false] at isSymbol
  rcases isSymbol with rfl | rfl | rfl | rfl | rfl | rfl | rfl
  case inr.inr.inl => exact absurd rfl notGreater
  all_goals exact ⟨_, rfl⟩

/-- A byte that is not part of a word ends the word before it. -/
theorem scan_flush (ends : ∀ c ∈ r.head?, isWordByte c = false) :
    scan w r = flush w ++ tokens r := by
  cases r with
  | nil =>
      rw [tokens, scan, scan]
      exact (List.append_nil _).symm
  | cons c r =>
      have notWord := ends c rfl
      rw [tokens]
      by_cases blank : isBlank c = true
      · cases r <;> simp only [scan, if_pos blank] <;> rfl
      · by_cases greater : c = chr '>'
        · cases r with
          | nil =>
              simp only [scan, if_neg blank, if_pos greater]
              rfl
          | cons c' r =>
              simp only [scan, if_neg blank, if_pos greater]
              split <;> rfl
        · have inSymbols : c ∈ symbols := by
            by_contra outside
            rw [(isWordByte_iff c).mpr ⟨blank, outside⟩] at notWord
            cases notWord
          obtain ⟨x, isSymbol⟩ := isSome_ofByte inSymbols greater
          cases r <;> simp only [scan, if_neg blank, if_neg greater, isSymbol] <;> rfl

theorem scan_append (isWord : ∀ c ∈ u, isWordByte c = true) :
    scan w (u ++ r) = scan (w ++ u) r := by
  induction u generalizing w with
  | nil => rw [List.append_nil, List.nil_append]
  | cons c u ih =>
      rw [List.cons_append, scan_word (isWord c List.mem_cons_self),
        ih fun c member => isWord c (List.mem_cons_of_mem _ member),
        List.append_assoc]
      rfl

theorem tokens_word (isWord : ∀ c ∈ u, isWordByte c = true) (nonempty : u ≠ [])
    (ends : ∀ c ∈ r.head?, isWordByte c = false) :
    tokens (u ++ r) = .word u :: tokens r := by
  rw [tokens, scan_append isWord, List.nil_append, scan_flush ends, flush, if_neg nonempty]
  rfl

def Symbol.first : Symbol → Byte
  | .bar => chr '|'
  | .lparen => chr '('
  | .rparen => chr ')'
  | .semi => chr ';'
  | .amp => chr '&'
  | .less => chr '<'
  | .greater | .append => chr '>'

theorem ofByte_first (isSymbol : Symbol.ofByte c = some x) : c = x.first := by
  unfold Symbol.ofByte at isSymbol
  repeat' split at isSymbol
  all_goals cases isSymbol
  all_goals assumption

/-- The first token of a line that does not start with a blank. -/
theorem tokens_cons (notBlank : isBlank c = false) :
    (∃ x ts, tokens (c :: r) = .symbol x :: ts ∧ c = x.first) ∨
      ∃ w ts, tokens (c :: r) = .word w :: ts ∧ isWordByte c = true := by
  by_cases isGreater : c = chr '>'
  · left
    subst isGreater
    by_cases single : r.head? = some (chr '>')
    · obtain ⟨rest, rfl⟩ := List.head?_eq_some_iff.mp single
      exact ⟨.append, _, tokens_append, rfl⟩
    · exact ⟨.greater, _, tokens_greater single, rfl⟩
  cases isSymbol : Symbol.ofByte c with
  | some x => exact .inl ⟨x, _, tokens_symbol isSymbol, ofByte_first isSymbol⟩
  | none =>
      have isWord : isWordByte c = true := by
        refine (isWordByte_iff c).mpr ⟨by rw [notBlank]; decide, fun inSymbols => ?_⟩
        obtain ⟨x, isSome⟩ := isSome_ofByte inSymbols isGreater
        rw [isSymbol] at isSome
        cases isSome
      refine .inr ⟨(c :: r).takeWhile isWordByte,
        tokens ((c :: r).dropWhile isWordByte), ?_, isWord⟩
      conv_lhs => rw [← List.takeWhile_append_dropWhile (p := isWordByte) (l := c :: r)]
      refine tokens_word (List.all_eq_true.mp List.all_takeWhile) ?_ fun d isHead => ?_
      · rw [List.takeWhile_cons, if_pos isWord]
        nofun
      · have stops := List.head?_dropWhile_not isWordByte (c :: r)
        rw [Option.mem_def.mp isHead] at stops
        simpa using stops

end Scan

/-! ## Offsets -/

section Offsets

variable (line : List Byte)

def tokensAt (s : Nat) : List Token :=
  tokens (line.drop s)

def Word.text (word : Word) : List Byte :=
  (line.drop word.q).take (word.eq - word.q)

/-- The offsets enclose a word of the line, and the whole word. -/
structure Word.Proper (word : Word) : Prop where
  isPrefix : line.drop word.q = word.text line ++ line.drop word.eq
  isWord : ∀ c ∈ word.text line, isWordByte c = true
  ends : ∀ c ∈ (line.drop word.eq).head?, isWordByte c = false
  length : word.q + (word.text line).length = word.eq

theorem drop_skip (p : Byte → Bool) (s : Nat) :
    line.drop (skip p line s) = (line.drop s).dropWhile p := by
  rw [skip, ← List.drop_drop]
  induction line.drop s with
  | nil => rfl
  | cons c r ih =>
      rw [List.takeWhile_cons, List.dropWhile_cons]
      split
      · exact ih
      · rfl

theorem getD_eq_head (s : Nat) : line.getD s 0 = (line.drop s).head?.getD 0 := by
  rw [List.head?_drop, List.getD_eq_getElem?_getD]

/-- Skipping blanks changes no tokens. -/
theorem tokensAt_skip (s : Nat) : tokensAt line (skip isBlank line s) = tokensAt line s := by
  rw [tokensAt, drop_skip, tokens_dropWhile, tokensAt]

variable {line} {s : Nat}

theorem skip_head (p : Byte → Bool) (s : Nat) :
    ∀ c ∈ (line.drop (skip p line s)).head?, p c = false := by
  intro c isHead
  have stops := List.head?_dropWhile_not p (line.drop s)
  rw [drop_skip, Option.mem_def] at isHead
  rw [isHead] at stops
  simpa using stops

theorem proper_skip {c : Byte} {r : List Byte} (isRest : line.drop s = c :: r)
    (isWord : isWordByte c = true) :
    Word.Proper line ⟨s, skip isWordByte line s⟩ ∧
      tokensAt line s = .word (Word.text line ⟨s, skip isWordByte line s⟩) ::
        tokensAt line (skip isWordByte line s) := by
  have isText : Word.text line ⟨s, skip isWordByte line s⟩ =
      (line.drop s).takeWhile isWordByte := by
    rw [Word.text, skip, Nat.add_sub_cancel_left]
    exact (List.prefix_iff_eq_take.mp (List.takeWhile_prefix _)).symm
  have parts : line.drop s = (line.drop s).takeWhile isWordByte ++
      line.drop (skip isWordByte line s) := by
    rw [drop_skip, List.takeWhile_append_dropWhile]
  have ofWord : ∀ c ∈ (line.drop s).takeWhile isWordByte, isWordByte c = true :=
    List.all_eq_true.mp List.all_takeWhile
  have nonempty : (line.drop s).takeWhile isWordByte ≠ [] := by
    rw [isRest, List.takeWhile_cons, if_pos isWord]
    nofun
  refine ⟨⟨isText ▸ parts, isText ▸ ofWord, skip_head isWordByte s, by rw [isText]; rfl⟩, ?_⟩
  rw [tokensAt, parts, tokens_word ofWord nonempty (skip_head isWordByte s), isText]
  rfl

/-- **`gettoken` returns the next token** and moves behind it. -/
theorem gettoken_spec (nulFree : ∀ c ∈ line, c ≠ 0) (s : Nat) :
    (gettoken line s).1 = .zero ∧ tokensAt line s = [] ∧
        tokensAt line (gettoken line s).2.2 = [] ∨
      (∃ x, (gettoken line s).1 = .symbol x ∧
        tokensAt line s = .symbol x :: tokensAt line (gettoken line s).2.2) ∨
      (gettoken line s).1 = .a ∧ (gettoken line s).2.1.Proper line ∧
        tokensAt line s =
          .word ((gettoken line s).2.1.text line) :: tokensAt line (gettoken line s).2.2 := by
  have notBlank : ∀ c ∈ (line.drop (skip isBlank line s)).head?, isBlank c = false :=
    skip_head isBlank s
  unfold gettoken
  dsimp only
  rw [← tokensAt_skip line s]
  generalize skip isBlank line s = s at *
  have isByte := getD_eq_head line s
  cases isRest : line.drop s with
  | nil =>
      have isEnd : line.getD s 0 = 0 := by
        rw [isByte, isRest]
        rfl
      rw [if_pos isEnd]
      refine .inl ⟨rfl, ?_, ?_⟩
      · rw [tokensAt, isRest]
        rfl
      · rw [tokensAt_skip, tokensAt, isRest]
        rfl
  | cons c r =>
      rw [isRest] at isByte notBlank
      have notBlank : isBlank c = false := notBlank c rfl
      have isRest' : line.drop (s + 1) = r := by
        rw [← List.drop_drop, isRest]
        rfl
      have notNul : c ≠ 0 := by
        refine nulFree c (List.mem_of_mem_drop (i := s) ?_)
        rw [isRest]
        exact List.mem_cons_self
      have isByte : line.getD s 0 = c := isByte
      rw [isByte, if_neg notNul]
      right
      split
      · -- '>' or ">>"
        rename_i isGreater
        left
        have isNext := getD_eq_head line (s + 1)
        rw [isRest'] at isNext
        rw [tokensAt, isRest, isGreater]
        split
        · rename_i again
          refine ⟨.append, rfl, ?_⟩
          rw [tokensAt_skip, tokensAt]
          cases r with
          | nil => exact absurd (isNext.symm.trans again) (by decide)
          | cons c' r =>
              have isGreater' : c' = chr '>' := isNext.symm.trans again
              have isRest'' : line.drop (s + 2) = r := by
                rw [← List.drop_drop, isRest]
                rfl
              rw [isGreater', tokens_append, isRest'']
        · rename_i single
          refine ⟨.greater, rfl, ?_⟩
          rw [tokensAt_skip, tokensAt, isRest', tokens_greater]
          intro isHead
          rw [isHead] at isNext
          exact single isNext
      · rename_i notGreater
        cases isSymbol : Symbol.ofByte c with
        | some x =>
            left
            refine ⟨x, rfl, ?_⟩
            rw [tokensAt_skip, tokensAt, tokensAt, isRest, isRest', tokens_symbol isSymbol]
        | none =>
            right
            have isWord : isWordByte c = true := by
              refine (isWordByte_iff c).mpr ⟨by rw [notBlank]; decide, fun inSymbols => ?_⟩
              obtain ⟨x, isSome⟩ := isSome_ofByte inSymbols notGreater
              rw [isSymbol] at isSome
              cases isSome
            obtain ⟨isProper, isTokens⟩ := proper_skip isRest isWord
            refine ⟨rfl, isProper, ?_⟩
            dsimp only
            rw [tokensAt_skip]
            exact isTokens

theorem skip_le (p : Byte → Bool) (inLine : s ≤ line.length) :
    skip p line s ≤ line.length := by
  have short := (List.takeWhile_sublist (l := line.drop s) p).length_le
  rw [List.length_drop] at short
  unfold skip
  omega

theorem gettoken_le (inLine : s ≤ line.length) :
    (gettoken line s).2.2 ≤ line.length := by
  have inLine := skip_le isBlank inLine
  have isByte : ∀ s, line.getD s 0 ≠ 0 → s + 1 ≤ line.length := by
    intro s notNul
    by_contra outside
    rw [List.getD_eq_getElem?_getD, List.getElem?_eq_none (by omega)] at notNul
    exact notNul rfl
  unfold gettoken
  dsimp only
  refine skip_le isBlank ?_
  split
  · exact inLine
  · rename_i notNul
    split
    · split
      · rename_i again
        exact isByte _ (again ▸ by decide)
      · exact isByte _ notNul
    · split
      · exact isByte _ notNul
      · exact skip_le isWordByte inLine

end Offsets

/-! ## The parser at a place in the line -/

/-- `*ps` is at these tokens. -/
structure At (line : List Byte) (s : Nat) (ts : List Token) : Prop where
  inLine : s ≤ line.length
  isTokens : tokensAt line s = ts

/-- Whether the next token is a symbol that starts with one of these. -/
def starts (toks : List Byte) : List Token → Bool
  | .symbol x :: _ => toks.contains x.first
  | _ => false

theorem starts_symbol {toks : List Byte} {x : Symbol} {rest : List Token} :
    starts toks (.symbol x :: rest) = true ↔ x.first ∈ toks :=
  List.contains_iff_mem

section Places

variable {line : List Byte} {s : Nat} {ts : List Token}

theorem At.gettoken_nil (nulFree : ∀ c ∈ line, c ≠ 0) (place : At line s []) :
    (gettoken line s).1 = .zero ∧ At line (gettoken line s).2.2 [] := by
  rcases gettoken_spec nulFree s with ⟨isTok, -, isRest⟩ | ⟨x, -, isFirst⟩ | ⟨-, -, isFirst⟩
  · exact ⟨isTok, gettoken_le place.inLine, isRest⟩
  · rw [place.isTokens] at isFirst
    cases isFirst
  · rw [place.isTokens] at isFirst
    cases isFirst

theorem At.gettoken_symbol {x : Symbol} (nulFree : ∀ c ∈ line, c ≠ 0)
    (place : At line s (.symbol x :: ts)) :
    (gettoken line s).1 = .symbol x ∧ At line (gettoken line s).2.2 ts := by
  rcases gettoken_spec nulFree s with ⟨-, isFirst, -⟩ | ⟨y, isTok, isFirst⟩ | ⟨-, -, isFirst⟩
  · rw [place.isTokens] at isFirst
    cases isFirst
  · rw [place.isTokens] at isFirst
    obtain ⟨isSymbol, isRest⟩ := List.cons.inj isFirst
    cases isSymbol
    exact ⟨isTok, gettoken_le place.inLine, isRest.symm⟩
  · rw [place.isTokens] at isFirst
    cases isFirst

theorem At.gettoken_word {w : List Byte} (nulFree : ∀ c ∈ line, c ≠ 0)
    (place : At line s (.word w :: ts)) :
    (gettoken line s).1 = .a ∧ (gettoken line s).2.1.Proper line ∧
      (gettoken line s).2.1.text line = w ∧ At line (gettoken line s).2.2 ts := by
  rcases gettoken_spec nulFree s with ⟨-, isFirst, -⟩ | ⟨y, -, isFirst⟩ | ⟨isTok, isProper, isFirst⟩
  · rw [place.isTokens] at isFirst
    cases isFirst
  · rw [place.isTokens] at isFirst
    cases isFirst
  · rw [place.isTokens] at isFirst
    obtain ⟨isWord, isRest⟩ := List.cons.inj isFirst
    cases isWord
    exact ⟨isTok, isProper, rfl, gettoken_le place.inLine, isRest.symm⟩

/-- **`peek` tells whether the next token is one of some symbols** and moves over blanks only. -/
theorem At.peek (nulFree : ∀ c ∈ line, c ≠ 0) (place : At line s ts) (toks : List Byte)
    (within : ∀ c ∈ toks, c ∈ symbols) :
    (peek line s toks).1 = starts toks ts ∧ At line (peek line s toks).2 ts := by
  refine ⟨?_, skip_le isBlank place.inLine, (tokensAt_skip line s).trans place.isTokens⟩
  have notBlank : ∀ c ∈ (line.drop (skip isBlank line s)).head?, isBlank c = false :=
    skip_head isBlank s
  have isTokens := (tokensAt_skip line s).trans place.isTokens
  unfold Shell.peek
  dsimp only
  generalize skip isBlank line s = s at *
  rw [getD_eq_head]
  rw [tokensAt] at isTokens
  cases isRest : line.drop s with
  | nil =>
      rw [isRest] at isTokens
      rw [← isTokens]
      rfl
  | cons c r =>
      rw [isRest] at notBlank isTokens
      have notNul : c ≠ 0 := by
        refine nulFree c (List.mem_of_mem_drop (i := s) ?_)
        rw [isRest]
        exact List.mem_cons_self
      rw [← isTokens, List.head?_cons, Option.getD_some, bne_iff_ne.mpr notNul, Bool.true_and]
      rcases tokens_cons (r := r) (notBlank c rfl) with ⟨x, rest, isFirst, rfl⟩ |
        ⟨w, rest, isFirst, isWord⟩
      · rw [isFirst]
        rfl
      · rw [isFirst]
        refine Bool.eq_false_iff.mpr fun found => ?_
        exact ((isWordByte_iff c).mp isWord).2 (within c (List.contains_iff_mem.mp found))

theorem At.leftovers (place : At line s ts) : (Shell.peek line s []).2 = line.length ↔ ts = [] := by
  have inLine := skip_le isBlank place.inLine
  have notBlank : ∀ c ∈ (line.drop (skip isBlank line s)).head?, isBlank c = false :=
    skip_head isBlank s
  have isTokens := (tokensAt_skip line s).trans place.isTokens
  unfold Shell.peek
  dsimp only
  generalize skip isBlank line s = s at *
  rw [tokensAt] at isTokens
  cases isRest : line.drop s with
  | nil =>
      have short := congrArg List.length isRest
      rw [List.length_drop, List.length_nil] at short
      rw [isRest] at isTokens
      exact iff_of_true (by omega) isTokens.symm
  | cons c r =>
      have long := congrArg List.length isRest
      rw [List.length_drop, List.length_cons] at long
      rw [isRest] at isTokens notBlank
      refine iff_of_false (by omega) fun isEmpty => ?_
      rw [isEmpty] at isTokens
      rcases tokens_cons (r := r) (notBlank c rfl) with ⟨x, rest, isFirst, -⟩ |
        ⟨w, rest, isFirst, -⟩
      · rw [isTokens] at isFirst
        cases isFirst
      · rw [isTokens] at isFirst
        cases isFirst

end Places

end Xv6.Shell
