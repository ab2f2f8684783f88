import Xv6.Shell.Tokens

/-!
Contract: the grammar of the shell, and the parse functions against it.

Owns: the derivations of lines, pipes and commands with their trees, and for every parse function
that it either consumes the one derivation that fits what follows, or panics because there is
none.

Does not own: how a line splits into tokens.
-/

namespace Xv6.Shell

open Xv6.Format

/-! ## Derivations -/

/-- redir ::= ('<' | '>' | '>>') word -/
def direct : Symbol → List Byte → Option (Redir (List Byte))
  | .less, w => some ⟨w, O_RDONLY, 0⟩
  | .greater, w => some ⟨w, O_WRONLY ||| O_CREATE ||| O_TRUNC, 1⟩
  | .append, w => some ⟨w, O_WRONLY ||| O_CREATE, 1⟩
  | _, _ => none

/-- redir* -/
inductive Redirs : List Token → List (Redir (List Byte)) → Prop where
  | nil : Redirs [] []
  | cons {x : Symbol} {w : List Byte} {r : Redir (List Byte)} {ts : List Token}
      {l : List (Redir (List Byte))} (isRedir : direct x w = some r) (rest : Redirs ts l) :
      Redirs (.symbol x :: .word w :: ts) (r :: l)

/-- (word redir*)* -/
inductive Words : List Token → List (List Byte) → List (Redir (List Byte)) → Prop where
  | nil : Words [] [] []
  | cons {w : List Byte} {ts us : List Token} {argv : List (List Byte)}
      {l l' : List (Redir (List Byte))} (redirs : Redirs ts l) (rest : Words us argv l') :
      Words (.word w :: (ts ++ us)) (w :: argv) (l ++ l')

/-- A command behind `n` times '&'. -/
def backs {W : Type} : Nat → Cmd W → Cmd W
  | 0, cmd => cmd
  | n + 1, cmd => backs n (.back cmd)

mutual

/-- line ::= pipe '&'* [';' line] -/
inductive Line : List Token → Cmd (List Byte) → Prop where
  | single {ts : List Token} {cmd : Cmd (List Byte)} (pipe : Pipe ts cmd) (n : Nat) :
      Line (ts ++ List.replicate n (.symbol .amp)) (backs n cmd)
  | list {ts us : List Token} {cmd cmd' : Cmd (List Byte)} (pipe : Pipe ts cmd) (n : Nat)
      (rest : Line us cmd') :
      Line (ts ++ (List.replicate n (.symbol .amp) ++ .symbol .semi :: us))
        (.list (backs n cmd) cmd')

/-- pipe ::= exec ['|' pipe] -/
inductive Pipe : List Token → Cmd (List Byte) → Prop where
  | single {ts : List Token} {cmd : Cmd (List Byte)} (exec : Exec ts cmd) : Pipe ts cmd
  | pipe {ts us : List Token} {cmd cmd' : Cmd (List Byte)} (exec : Exec ts cmd)
      (rest : Pipe us cmd') : Pipe (ts ++ .symbol .bar :: us) (.pipe cmd cmd')

/-- exec ::= '(' line ')' redir* | redir* (word redir*)*, with fewer than `MAXARGS` words -/
inductive Exec : List Token → Cmd (List Byte) → Prop where
  | block {ts us : List Token} {cmd : Cmd (List Byte)} {l : List (Redir (List Byte))}
      (line : Line ts cmd) (redirs : Redirs us l) :
      Exec (.symbol .lparen :: (ts ++ .symbol .rparen :: us)) (l.foldl .redir cmd)
  | simple {ts us : List Token} {argv : List (List Byte)} {l l' : List (Redir (List Byte))}
      (redirs : Redirs ts l) (words : Words us argv l') (few : argv.length < MAXARGS) :
      Exec (ts ++ us) ((l ++ l').foldl .redir (.exec argv))

end

/-! ## What a parse function is for -/

def Cmd.words {W : Type} : Cmd W → List W
  | .exec argv => argv
  | .redir cmd r => r.file :: cmd.words
  | .pipe left right | .list left right => left.words ++ right.words
  | .back cmd => cmd.words

/-- The outcome of a parse function at the tokens `ts`. It consumes a derivation in `G`, and no
other one is followed by what may follow, or it panics and there is no such derivation. -/
def Spec {A R : Type} (line : List Byte) (G : List Token → R → Prop) (follow : List Token → Prop)
    (read : A → R) (Good : A → Prop) (ts : List Token) : Outcome (A × Nat) → Prop
  | .ok (a, s) => Good a ∧ ∃ us rest, ts = us ++ rest ∧ At line s rest ∧ G us (read a) ∧
      ∀ us' rest' r, ts = us' ++ rest' → follow rest' → G us' r → us' = us ∧ r = read a
  | .panic _ => ∀ us rest r, ts = us ++ rest → follow rest → ¬ G us r
  | .timeout => False

section Rules

variable {A B R R' : Type} {line : List Byte} {G : List Token → R → Prop}
  {H : List Token → R' → Prop} {follow follow₁ : List Token → Prop} {read : A → R}
  {read' : B → R'} {Good : A → Prop} {Good' : B → Prop} {ts : List Token}

/-- The function goes on behind tokens that it has consumed. -/
theorem Spec.prepend (G₁ : List Token → R → Prop) (follow₁ : List Token → Prop)
    (first : List Token) {outcome : Outcome (A × Nat)}
    (spec : Spec line G₁ follow₁ read Good ts outcome) (forth : ∀ us r, G₁ us r → G (first ++ us) r)
    (back : ∀ us rest r, first ++ ts = us ++ rest → follow rest → G us r →
      ∃ us', us = first ++ us' ∧ G₁ us' r ∧ follow₁ rest) :
    Spec line G follow read Good (first ++ ts) outcome := by
  match outcome, spec with
  | .ok (a, s), ⟨good, us, rest, isTokens, place, derived, unique⟩ =>
      refine ⟨good, first ++ us, rest, by rw [isTokens, List.append_assoc], place,
        forth _ _ derived, fun us' rest' r isTokens' follows derived' => ?_⟩
      obtain ⟨us'', rfl, derived'', follows'⟩ := back us' rest' r isTokens' follows derived'
      rw [List.append_assoc] at isTokens'
      obtain ⟨rfl, isResult⟩ := unique us'' rest' r (List.append_cancel_left isTokens') follows'
        derived''
      exact ⟨rfl, isResult⟩
  | .panic _, noneDerived =>
      intro us rest r isTokens follows derived
      obtain ⟨us', rfl, derived', follows'⟩ := back us rest r isTokens follows derived
      rw [List.append_assoc] at isTokens
      exact noneDerived us' rest r (List.append_cancel_left isTokens) follows' derived'

/-- One parse function after another: the derivations start with those of the first one. -/
theorem Spec.bind {outcome : Outcome (B × Nat)} {next : B × Nat → Outcome (A × Nat)}
    (spec : Spec line H follow₁ read' Good' ts outcome)
    (begins : ∀ us rest r, ts = us ++ rest → follow rest → G us r →
      ∃ us' rest' r', ts = us' ++ rest' ∧ follow₁ rest' ∧ H us' r')
    (goesOn : ∀ b s us rest, Good' b → ts = us ++ rest → At line s rest → H us (read' b) →
      (∀ us' rest' r, ts = us' ++ rest' → follow₁ rest' → H us' r → us' = us ∧ r = read' b) →
      Spec line G follow read Good ts (next (b, s))) :
    Spec line G follow read Good ts (outcome >>= next) := by
  match outcome, spec with
  | .ok (b, s), ⟨good, us, rest, isTokens, place, derived, unique⟩ =>
      exact goesOn b s us rest good isTokens place derived unique
  | .panic _, noneDerived =>
      intro us rest r isTokens follows derived
      obtain ⟨us', rest', r', isTokens', follows', derived'⟩ :=
        begins us rest r isTokens follows derived
      exact noneDerived us' rest' r' isTokens' follows' derived'

end Rules

/-- The next token is none that `peek` would find. -/
def Unlike (toks : List Byte) (rest : List Token) : Prop :=
  starts toks rest = false

/-- There is no next token, or `peek` finds it. -/
def Follows (toks : List Byte) (rest : List Token) : Prop :=
  rest = [] ∨ starts toks rest = true

section Loops

variable {line toks toks' w : List Byte} {s fuel : Nat} {ts us rest : List Token}
  {l : List (Redir (List Byte))} {argv : List (List Byte)} {x : Symbol}

theorem Follows.unlike (follows : Follows toks rest) (apart : ∀ c ∈ toks, c ∉ toks') :
    Unlike toks' rest := by
  rcases follows with rfl | found
  · rfl
  · match rest, found with
    | .symbol x :: rest, found =>
        exact Bool.eq_false_iff.mpr fun found' =>
          apart _ (starts_symbol.mp found) (starts_symbol.mp found')

theorem Follows.mono (follows : Follows toks rest) (within : ∀ c ∈ toks, c ∈ toks') :
    Follows toks' rest := by
  rcases follows with rfl | found
  · exact .inl rfl
  · match rest, found with
    | .symbol x :: rest, found =>
        exact .inr (starts_symbol.mpr (within _ (starts_symbol.mp found)))

/-- The symbol that `peek` has found. -/
theorem symbol_of_starts (found : starts toks ts = true) :
    ∃ x rest, ts = .symbol x :: rest ∧ x.first ∈ toks := by
  match ts, found with
  | .symbol x :: rest, found => exact ⟨x, rest, rfl, starts_symbol.mp found⟩

/-- The redirections of the parser, as the words they name. -/
def Redir.read (line : List Byte) : Redir Word → Redir (List Byte) :=
  Redir.map (Word.text line)

theorem redircmd_direct {word : Word} (isRedir : x.first ∈ [chr '<', chr '>'])
    (isText : word.text line = w) :
    ∃ r, redircmd (.symbol x) word = [r] ∧ direct x w = some (r.read line) ∧ r.file = word := by
  subst isText
  cases x
  case less | greater | append => exact ⟨_, rfl, rfl, rfl⟩
  all_goals exact absurd isRedir (by decide)

theorem direct_first {r : Redir (List Byte)} (isRedir : direct x w = some r) :
    x.first ∈ [chr '<', chr '>'] := by
  cases x
  case less | greater | append => decide
  all_goals cases isRedir

/-- What starts with a redirection does not derive from no redirections. -/
theorem Redirs.nonempty (derived : Redirs us l) (isTokens : ts = us ++ rest)
    (unlike : Unlike toks rest) (found : starts toks ts = true) :
    ∃ x w r us' l', us = .symbol x :: .word w :: us' ∧ l = r :: l' ∧ direct x w = some r ∧
      Redirs us' l' := by
  cases derived with
  | nil =>
      rw [isTokens, List.nil_append] at found
      rw [Unlike, found] at unlike
      cases unlike
  | cons isRedir rest => exact ⟨_, _, _, _, _, rfl, rfl, isRedir, rest⟩

theorem parseredirs_succ (fuel : Nat) (redirs : List (Redir Word)) (s : Nat) :
    parseredirs line (fuel + 1) redirs s =
      if (peek line s [chr '<', chr '>']).1 then
        if (gettoken line (gettoken line (peek line s [chr '<', chr '>']).2).2.2).1 ≠ .a then
          .panic .missingFile
        else
          parseredirs line fuel (redirs ++ redircmd
              (gettoken line (peek line s [chr '<', chr '>']).2).1
              (gettoken line (gettoken line (peek line s [chr '<', chr '>']).2).2.2).2.1)
            (gettoken line (gettoken line (peek line s [chr '<', chr '>']).2).2.2).2.2
      else
        .ok (redirs, (peek line s [chr '<', chr '>']).2) := rfl

/-- **`parseredirs` parses redir\***. -/
theorem parseredirs_spec (nulFree : ∀ c ∈ line, c ≠ 0) (place : At line s ts)
    (enough : ts.length < fuel) (redirs : List (Redir Word))
    (good : ∀ r ∈ redirs, r.file.Proper line) :
    Spec line (fun us l => ∃ l', Redirs us l' ∧ l = redirs.map (Redir.read line) ++ l')
      (Unlike [chr '<', chr '>']) (List.map (Redir.read line))
      (fun redirs => ∀ r ∈ redirs, r.file.Proper line) ts (parseredirs line fuel redirs s) := by
  induction fuel generalizing s ts redirs with
  | zero => omega
  | succ fuel ih =>
      obtain ⟨isFound, place'⟩ := place.peek nulFree [chr '<', chr '>'] (by decide)
      rw [parseredirs_succ, isFound]
      cases found : starts [chr '<', chr '>'] ts with
      | false =>
          rw [if_neg (by decide)]
          refine ⟨good, [], ts, rfl, place', ⟨[], .nil, (List.append_nil _).symm⟩, ?_⟩
          rintro us' rest' l isTokens - ⟨l', derived, rfl⟩
          cases derived with
          | nil => exact ⟨rfl, List.append_nil _⟩
          | cons isRedir rest =>
              rw [isTokens, List.cons_append, Bool.eq_false_iff, ne_eq, starts_symbol] at found
              exact absurd (direct_first isRedir) found
      | true =>
          rw [if_pos rfl]
          obtain ⟨x, ts', rfl, isRedir⟩ := symbol_of_starts found
          obtain ⟨isTok, place₁⟩ := place'.gettoken_symbol nulFree
          rw [isTok]
          match ts', place₁ with
          | [], place₁ =>
              rw [(place₁.gettoken_nil nulFree).1, if_pos nofun]
              rintro us rest l isTokens unlike ⟨l', derived, -⟩
              obtain ⟨x', w, r, us', l'', rfl, -, -, -⟩ := derived.nonempty isTokens unlike found
              cases isTokens
          | .symbol y :: ts', place₁ =>
              rw [(place₁.gettoken_symbol nulFree).1, if_pos nofun]
              rintro us rest l isTokens unlike ⟨l', derived, -⟩
              obtain ⟨x', w, r, us', l'', rfl, -, -, -⟩ := derived.nonempty isTokens unlike found
              cases isTokens
          | .word w :: ts', place₁ =>
              obtain ⟨isTok', isProper, isText, place₂⟩ := place₁.gettoken_word nulFree
              obtain ⟨r, isRedirs, isDirect, isFile⟩ := redircmd_direct isRedir isText
              rw [isTok', if_neg (fun other => other rfl), isRedirs]
              refine Spec.prepend _ _ [.symbol x, .word w] (ih place₂
                (by simp only [List.length_cons] at enough; omega) _ ?_) ?_ ?_
              · intro r' member
                rcases List.mem_append.mp member with earlier | isNew
                · exact good r' earlier
                · rw [List.mem_singleton.mp isNew, isFile]
                  exact isProper
              · rintro us l ⟨l', derived, rfl⟩
                exact ⟨_, .cons isDirect derived, by simp⟩
              · rintro us rest l isTokens unlike ⟨l', derived, rfl⟩
                obtain ⟨x', w', r', us', l'', rfl, rfl, isDirect', derived'⟩ :=
                  derived.nonempty isTokens unlike found
                simp only [List.cons_append, List.cons.injEq, Token.symbol.injEq,
                  Token.word.injEq, List.nil_append] at isTokens
                obtain ⟨rfl, rfl, isTokens⟩ := isTokens
                rw [isDirect] at isDirect'
                cases isDirect'
                exact ⟨us', rfl, ⟨l'', derived', by simp⟩, unlike⟩

/-! ### '&'* -/

theorem symbol_of_first {y : Symbol} (single : y ≠ .greater ∧ y ≠ .append)
    (found : starts [y.first] ts = true) : ∃ rest, ts = .symbol y :: rest := by
  obtain ⟨x, rest, rfl, isFirst⟩ := symbol_of_starts found
  have same : x = y := by
    revert isFirst single
    cases y <;> cases x <;> decide
  exact ⟨rest, by rw [same]⟩

/-- The commands of the parser, with the words they name. -/
def Cmd.read (line : List Byte) : Cmd Word → Cmd (List Byte) :=
  Cmd.map (Word.text line)

def Cmd.Proper (line : List Byte) (cmd : Cmd Word) : Prop :=
  ∀ word ∈ cmd.words, word.Proper line

theorem parsebacks_succ (fuel : Nat) (cmd : Cmd Word) (s : Nat) :
    parsebacks line (fuel + 1) cmd s =
      if (peek line s [chr '&']).1 then
        parsebacks line fuel (.back cmd) (gettoken line (peek line s [chr '&']).2).2.2
      else
        .ok (cmd, (peek line s [chr '&']).2) := rfl

theorem parsebacks_spec (nulFree : ∀ c ∈ line, c ≠ 0) (place : At line s ts)
    (enough : ts.length < fuel) (cmd : Cmd Word) (good : cmd.Proper line) :
    Spec line (fun us cmd' => ∃ n, us = List.replicate n (.symbol .amp) ∧
        cmd' = backs n (cmd.read line))
      (Unlike [chr '&']) (Cmd.read line) (Cmd.Proper line) ts (parsebacks line fuel cmd s) := by
  induction fuel generalizing s ts cmd with
  | zero => omega
  | succ fuel ih =>
      obtain ⟨isFound, place'⟩ := place.peek nulFree [chr '&'] (by decide)
      rw [parsebacks_succ, isFound]
      cases found : starts [chr '&'] ts with
      | false =>
          rw [if_neg (by decide)]
          refine ⟨good, [], ts, rfl, place', ⟨0, rfl, rfl⟩, ?_⟩
          rintro us' rest' cmd' isTokens - ⟨n, rfl, rfl⟩
          cases n with
          | zero => exact ⟨rfl, rfl⟩
          | succ n =>
              rw [isTokens] at found
              cases found
      | true =>
          rw [if_pos rfl]
          obtain ⟨ts', rfl⟩ := symbol_of_first (y := .amp) (by decide) found
          refine Spec.prepend _ _ [.symbol .amp] (ih
            (place'.gettoken_symbol nulFree).2 (by simp only [List.length_cons] at enough; omega)
            (.back cmd) good) ?_ ?_
          · rintro us cmd' ⟨n, rfl, rfl⟩
            exact ⟨n + 1, rfl, rfl⟩
          · rintro us rest cmd' isTokens unlike ⟨n, rfl, rfl⟩
            cases n with
            | zero =>
                rw [show rest = .symbol .amp :: ts' from isTokens.symm] at unlike
                cases unlike
            | succ n => exact ⟨List.replicate n (.symbol .amp), rfl, ⟨n, rfl, rfl⟩, unlike⟩

/-! ### (word redir*)* -/

/-- What `peek` finds at the end of a simple command. -/
abbrev execEnd : List Byte := [chr '|', chr ')', chr '&', chr ';']

theorem parseargs_succ (fuel : Nat) (argv : List Word) (redirs : List (Redir Word)) (s : Nat) :
    parseargs line (fuel + 1) argv redirs s =
      if (peek line s execEnd).1 then .ok ((argv, redirs), (peek line s execEnd).2)
      else
        match (gettoken line (peek line s execEnd).2).1 with
        | .zero => .ok ((argv, redirs), (gettoken line (peek line s execEnd).2).2.2)
        | .symbol _ => .panic .syntaxError
        | .a =>
            if (argv ++ [(gettoken line (peek line s execEnd).2).2.1]).length ≥ MAXARGS then
              .panic .tooManyArgs
            else
              parseredirs line fuel redirs (gettoken line (peek line s execEnd).2).2.2 >>= fun p =>
                parseargs line fuel (argv ++ [(gettoken line (peek line s execEnd).2).2.1]) p.1
                  p.2 :=
  rfl

theorem Words.unlike (words : Words us argv l) (follows : Follows execEnd rest) :
    Unlike [chr '<', chr '>'] (us ++ rest) := by
  cases words with
  | nil => exact follows.unlike (by decide)
  | cons => rfl

/-- The words behind `argv` and the redirections behind `redirs`. -/
def Args (line : List Byte) (argv : List Word) (redirs : List (Redir Word)) (us : List Token)
    (parsed : List (List Byte) × List (Redir (List Byte))) : Prop :=
  ∃ argv' l, Words us argv' l ∧
    parsed = (argv.map (Word.text line) ++ argv', redirs.map (Redir.read line) ++ l) ∧
    argv.length + argv'.length < MAXARGS

/-- The same where redirections come first. -/
def RedirArgs (line : List Byte) (argv : List Word) (redirs : List (Redir Word)) (us : List Token)
    (parsed : List (List Byte) × List (Redir (List Byte))) : Prop :=
  ∃ us₁ us₂ l₁ argv' l₂, us = us₁ ++ us₂ ∧ Redirs us₁ l₁ ∧ Words us₂ argv' l₂ ∧
    parsed = (argv.map (Word.text line) ++ argv', redirs.map (Redir.read line) ++ (l₁ ++ l₂)) ∧
    argv.length + argv'.length < MAXARGS

def readArgs (line : List Byte) (parsed : List Word × List (Redir Word)) :
    List (List Byte) × List (Redir (List Byte)) :=
  (parsed.1.map (Word.text line), parsed.2.map (Redir.read line))

def ProperArgs (line : List Byte) (parsed : List Word × List (Redir Word)) : Prop :=
  (∀ word ∈ parsed.1, word.Proper line) ∧ ∀ r ∈ parsed.2, r.file.Proper line

/-- Redirections and then the loop of `parseexec`. -/
theorem redirArgs_spec (nulFree : ∀ c ∈ line, c ≠ 0) (place : At line s ts)
    (enough : ts.length < fuel) (argv : List Word) (redirs : List (Redir Word))
    (good : ProperArgs line (argv, redirs))
    (args : ∀ s ts redirs, At line s ts → ts.length < fuel → ProperArgs line (argv, redirs) →
      Spec line (Args line argv redirs) (Follows execEnd) (readArgs line) (ProperArgs line) ts
        (parseargs line fuel argv redirs s)) :
    Spec line (RedirArgs line argv redirs) (Follows execEnd) (readArgs line) (ProperArgs line) ts
      (parseredirs line fuel redirs s >>= fun p => parseargs line fuel argv p.1 p.2) := by
  refine (parseredirs_spec nulFree place enough redirs good.2).bind ?_ ?_
  · rintro us rest parsed rfl follows ⟨us₁, us₂, l₁, argv', l₂, rfl, isRedirs, isWords, -, -⟩
    exact ⟨us₁, us₂ ++ rest, _, List.append_assoc .., isWords.unlike follows, _, isRedirs, rfl⟩
  · rintro redirs' s' us rest good' rfl place' ⟨l, isRedirs, isRead⟩ unique
    refine Spec.prepend _ _ us (args s' rest redirs' place' ?_ ⟨good.1, good'⟩) ?_ ?_
    · rw [List.length_append] at enough
      omega
    · rintro us' parsed ⟨argv', l', isWords, rfl, few⟩
      refine ⟨us, us', l, argv', l', rfl, isRedirs, isWords, ?_, few⟩
      rw [isRead, List.append_assoc]
    · rintro us' rest' parsed isTokens follows
        ⟨us₁, us₂, l₁, argv', l₂, rfl, isRedirs', isWords, rfl, few⟩
      rw [List.append_assoc] at isTokens
      obtain ⟨rfl, isRead'⟩ := unique us₁ (us₂ ++ rest') _ isTokens (isWords.unlike follows)
        ⟨l₁, isRedirs', rfl⟩
      refine ⟨us₂, rfl, ⟨argv', l₂, isWords, ?_, few⟩, follows⟩
      rw [← isRead', List.append_assoc]

/-- **The loop of `parseexec` parses (word redir\*)\***. -/
theorem parseargs_spec (nulFree : ∀ c ∈ line, c ≠ 0) (place : At line s ts)
    (enough : ts.length < fuel) (argv : List Word) (redirs : List (Redir Word))
    (few : argv.length < MAXARGS) (good : ProperArgs line (argv, redirs)) :
    Spec line (Args line argv redirs) (Follows execEnd) (readArgs line) (ProperArgs line) ts
      (parseargs line fuel argv redirs s) := by
  induction fuel generalizing s ts argv redirs with
  | zero => omega
  | succ fuel ih =>
      obtain ⟨isFound, place'⟩ := place.peek nulFree execEnd (by decide)
      have nothing : Args line argv redirs [] (readArgs line (argv, redirs)) :=
        ⟨[], [], .nil, by rw [List.append_nil, List.append_nil]; rfl, few⟩
      rw [parseargs_succ, isFound]
      cases found : starts execEnd ts with
      | true =>
          rw [if_pos rfl]
          refine ⟨good, [], ts, rfl, place', nothing, ?_⟩
          rintro us' rest' parsed isTokens - ⟨argv', l, isWords, rfl, -⟩
          cases isWords with
          | nil => exact ⟨rfl, by rw [List.append_nil, List.append_nil]; rfl⟩
          | cons =>
              rw [isTokens] at found
              cases found
      | false =>
          rw [if_neg (by decide)]
          -- No derivation is empty, unless there is nothing.
          have nonempty : ∀ us rest parsed, ts = us ++ rest → ts ≠ [] → Follows execEnd rest →
              Args line argv redirs us parsed → ∃ w us₁ us₂ l₁ argv' l₂,
                us = .word w :: (us₁ ++ us₂) ∧ Redirs us₁ l₁ ∧ Words us₂ argv' l₂ ∧
                parsed = (argv.map (Word.text line) ++ w :: argv',
                  redirs.map (Redir.read line) ++ (l₁ ++ l₂)) ∧
                argv.length + (argv'.length + 1) < MAXARGS := by
            rintro us rest parsed rfl notEmpty follows ⟨argv', l, isWords, rfl, few'⟩
            cases isWords with
            | nil =>
                rcases follows with rfl | found'
                · exact absurd rfl notEmpty
                · rw [List.nil_append, found'] at found
                  cases found
            | cons isRedirs isWords => exact ⟨_, _, _, _, _, _, rfl, isRedirs, isWords, rfl, few'⟩
          match ts, place' with
          | [], place' =>
              obtain ⟨isTok, place''⟩ := place'.gettoken_nil nulFree
              rw [isTok]
              refine ⟨good, [], [], rfl, place'', nothing, ?_⟩
              rintro us' rest' parsed isTokens - ⟨argv', l, isWords, rfl, -⟩
              obtain ⟨rfl, rfl⟩ := List.nil_eq_append_iff.mp isTokens
              cases isWords
              exact ⟨rfl, by rw [List.append_nil, List.append_nil]; rfl⟩
          | .symbol x :: ts', place' =>
              rw [(place'.gettoken_symbol nulFree).1]
              intro us rest parsed isTokens follows derived
              obtain ⟨w, us₁, us₂, l₁, argv', l₂, rfl, -⟩ :=
                nonempty us rest parsed isTokens nofun follows derived
              cases isTokens
          | .word w :: ts', place' =>
              obtain ⟨isTok, isProper, isText, place''⟩ := place'.gettoken_word nulFree
              rw [isTok]
              dsimp only
              generalize (gettoken line (peek line s execEnd).2).2.1 = word at *
              split
              · rename_i many
                intro us rest parsed isTokens follows derived
                obtain ⟨w, us₁, us₂, l₁, argv', l₂, -, -, -, -, few'⟩ :=
                  nonempty us rest parsed isTokens nofun follows derived
                rw [List.length_append, List.length_singleton] at many
                omega
              · rename_i notMany
                rw [List.length_append, List.length_singleton] at notMany
                refine Spec.prepend _ _ [.word w] (redirArgs_spec nulFree place'' (by
                  simp only [List.length_cons] at enough; omega) (argv ++ [word]) redirs
                    ⟨?_, good.2⟩
                  fun s ts redirs' place enough good' => ih place enough
                    (argv ++ [word]) redirs' (by
                      rw [List.length_append, List.length_singleton]; omega) good') ?_ ?_
                · intro word' member
                  rcases List.mem_append.mp member with earlier | isNew
                  · exact good.1 word' earlier
                  · rw [List.mem_singleton.mp isNew]
                    exact isProper
                · rintro us parsed ⟨us₁, us₂, l₁, argv', l₂, rfl, isRedirs, isWords, rfl, few'⟩
                  have isWords' : Words (.word w :: (us₁ ++ us₂)) (w :: argv') (l₁ ++ l₂) :=
                    .cons isRedirs isWords
                  refine ⟨w :: argv', l₁ ++ l₂, isWords', ?_, ?_⟩
                  · rw [List.map_append, List.append_assoc, ← isText]
                    rfl
                  · rw [List.length_append, List.length_singleton] at few'
                    rw [List.length_cons]
                    omega
                · intro us rest parsed isTokens follows derived
                  obtain ⟨w', us₁, us₂, l₁, argv', l₂, rfl, isRedirs, isWords, rfl, few'⟩ :=
                    nonempty us rest parsed isTokens nofun follows derived
                  obtain ⟨isWord, -⟩ := List.cons.inj isTokens
                  cases isWord
                  refine ⟨us₁ ++ us₂, rfl, ⟨us₁, us₂, l₁, argv', l₂, rfl, isRedirs,
                    isWords, ?_, ?_⟩, follows⟩
                  · rw [List.map_append, List.append_assoc, ← isText]
                    rfl
                  · rw [List.length_append, List.length_singleton]
                    omega

end Loops

/-! ## Commands, pipes and lines -/

/-- What may follow a pipe, and a line. -/
abbrev pipeEnd : List Byte := [chr ')', chr '&', chr ';']

abbrev lineEnd : List Byte := [chr ')']

/-- A parse function for these derivations. -/
def Parses (line : List Byte) (G : List Token → Cmd (List Byte) → Prop) (toks : List Byte)
    (ts : List Token) (outcome : Outcome (Cmd Word × Nat)) : Prop :=
  Spec line G (Follows toks) (Cmd.read line) (Cmd.Proper line) ts outcome

section Functions

variable {line : List Byte} {s fuel : Nat} {ts us rest : List Token} {cmd cmd' : Cmd (List Byte)}

theorem read_foldl (cmd : Cmd Word) (redirs : List (Redir Word)) :
    (redirs.foldl Cmd.redir cmd).read line =
      (redirs.map (Redir.read line)).foldl .redir (cmd.read line) := by
  induction redirs generalizing cmd with
  | nil => rfl
  | cons r redirs ih => exact ih (.redir cmd r)

theorem proper_foldl {cmd : Cmd Word} {redirs : List (Redir Word)} (good : cmd.Proper line)
    (goodRedirs : ∀ r ∈ redirs, r.file.Proper line) :
    (redirs.foldl Cmd.redir cmd).Proper line := by
  induction redirs generalizing cmd with
  | nil => exact good
  | cons r redirs ih =>
      refine ih ?_ fun r' member => goodRedirs r' (List.mem_cons_of_mem _ member)
      exact List.forall_mem_cons.mpr ⟨goodRedirs r List.mem_cons_self, good⟩

/-- Only a block starts with '('. -/
theorem Exec.block_of_starts (exec : Exec us cmd) (isTokens : ts = us ++ rest)
    (follows : Follows execEnd rest) (found : starts [chr '('] ts = true) :
    ∃ us₁ us₂ cmd' l, us = .symbol .lparen :: (us₁ ++ .symbol .rparen :: us₂) ∧ Line us₁ cmd' ∧
      Redirs us₂ l ∧ cmd = l.foldl .redir cmd' := by
  cases exec with
  | block isLine redirs => exact ⟨_, _, _, _, rfl, isLine, redirs, rfl⟩
  | simple redirs words few =>
      exfalso
      subst isTokens
      cases redirs with
      | nil =>
          cases words with
          | nil =>
              have unlike : starts [chr '('] rest = false := follows.unlike (by decide)
              rw [List.append_nil, List.nil_append, unlike] at found
              cases found
          | cons => cases found
      | @cons x _ _ _ _ isRedir _ =>
          have isParen : x.first ∈ [chr '('] := starts_symbol.mp found
          cases x
          case less | greater | append => exact absurd isParen (by decide)
          all_goals cases isRedir

theorem Exec.simple_of_unlike (exec : Exec us cmd) (isTokens : ts = us ++ rest)
    (unlike : starts [chr '('] ts = false) :
    ∃ us₁ us₂ l₁ argv l₂, us = us₁ ++ us₂ ∧ Redirs us₁ l₁ ∧ Words us₂ argv l₂ ∧
      argv.length < MAXARGS ∧ cmd = (l₁ ++ l₂).foldl .redir (.exec argv) := by
  cases exec with
  | block =>
      rw [isTokens] at unlike
      cases unlike
  | simple redirs words few => exact ⟨_, _, _, _, _, rfl, redirs, words, few, rfl⟩

theorem parseblock_succ (fuel s : Nat) :
    parseblock line (fuel + 1) s =
      if (peek line s [chr '(']).1 then
        parseline line fuel (gettoken line (peek line s [chr '(']).2).2.2 >>= fun p =>
          if (peek line p.2 [chr ')']).1 then
            parseredirs line fuel [] (gettoken line (peek line p.2 [chr ')']).2).2.2 >>= fun q =>
              .ok (q.1.foldl .redir p.1, q.2)
          else
            .panic .missingParen
      else
        .panic .parseblock := by
  rw [parseblock]
  rfl

theorem parseblock_step (nulFree : ∀ c ∈ line, c ≠ 0)
    (lines : ∀ s ts, At line s ts → 4 * ts.length + 4 ≤ fuel →
      Parses line Line lineEnd ts (parseline line fuel s))
    (place : At line s ts) (enough : 4 * ts.length ≤ fuel) (found : starts [chr '('] ts = true) :
    Parses line Exec execEnd ts (parseblock line (fuel + 1) s) := by
  obtain ⟨isFound, place'⟩ := place.peek nulFree [chr '('] (by decide)
  rw [parseblock_succ, isFound, found, if_pos rfl]
  obtain ⟨ts', rfl⟩ := symbol_of_first (y := .lparen) (by decide) found
  rw [List.length_cons] at enough
  have spec := lines _ ts' (place'.gettoken_symbol nulFree).2 (by omega)
  -- The derivations of blocks, without the '(' that is consumed.
  let Inner (us : List Token) (cmd : Cmd (List Byte)) : Prop :=
    ∃ us₁ us₂ cmd' l, us = us₁ ++ .symbol .rparen :: us₂ ∧ Line us₁ cmd' ∧ Redirs us₂ l ∧
      cmd = l.foldl .redir cmd'
  refine Spec.prepend Inner (Follows execEnd) [.symbol .lparen]
    (spec.bind ?_ ?_) ?_ ?_
  · rintro us rest cmd rfl follows ⟨us₁, us₂, cmd', l, rfl, isLine, -, -⟩
    exact ⟨us₁, .symbol .rparen :: (us₂ ++ rest), cmd', by simp, .inr rfl, isLine⟩
  · rintro cmd s₁ us rest good rfl place₁ isLine unique
    obtain ⟨isFound₁, place₁'⟩ := place₁.peek nulFree [chr ')'] (by decide)
    dsimp only
    rw [isFound₁]
    cases found₁ : starts [chr ')'] rest with
    | false =>
        rw [if_neg (by decide)]
        rintro us' rest' cmd' isTokens follows ⟨us₁, us₂, cmd'', l, rfl, isLine', -, -⟩
        rw [List.append_assoc] at isTokens
        obtain ⟨rfl, -⟩ := unique us₁ _ cmd'' isTokens (.inr rfl) isLine'
        rw [List.append_cancel_left isTokens] at found₁
        cases found₁
    | true =>
        rw [if_pos rfl]
        obtain ⟨rest₁, rfl⟩ := symbol_of_first (y := .rparen) (by decide) found₁
        have short : rest₁.length < fuel := by
          simp only [List.length_append, List.length_cons] at enough
          omega
        have redirSpec := parseredirs_spec nulFree (place₁'.gettoken_symbol nulFree).2 short []
          nofun
        let Tail (us : List Token) (cmd' : Cmd (List Byte)) : Prop :=
          ∃ l, Redirs us l ∧ cmd' = l.foldl .redir (cmd.read line)
        rw [List.append_cons]
        refine Spec.prepend Tail (Follows execEnd) (us ++ [.symbol .rparen])
          (redirSpec.bind ?_ ?_) ?_ ?_
        · rintro us' rest' cmd' rfl follows ⟨l, isRedirs, -⟩
          exact ⟨us', rest', l, rfl, follows.unlike (by decide), l, isRedirs, rfl⟩
        · rintro redirs s₂ us' rest' good' rfl place₂ ⟨l, isRedirs, isRead⟩ unique'
          refine ⟨proper_foldl good good', us', rest', rfl, place₂, ⟨l, isRedirs, ?_⟩, ?_⟩
          · rw [read_foldl, isRead]
            rfl
          · rintro us'' rest'' cmd'' isTokens follows ⟨l', isRedirs', rfl⟩
            obtain ⟨rfl, isRead'⟩ := unique' us'' rest'' l' isTokens (follows.unlike (by decide))
              ⟨l', isRedirs', rfl⟩
            rw [read_foldl, ← isRead']
            exact ⟨rfl, rfl⟩
        · rintro us' cmd' ⟨l, isRedirs, rfl⟩
          exact ⟨us, us', _, l, by simp, isLine, isRedirs, rfl⟩
        · rintro us' rest' cmd' isTokens follows ⟨us₁, us₂, cmd'', l, rfl, isLine', isRedirs, rfl⟩
          rw [← List.append_cons, List.append_assoc] at isTokens
          obtain ⟨rfl, rfl⟩ := unique us₁ _ cmd'' isTokens (.inr rfl) isLine'
          exact ⟨us₂, by simp, ⟨l, isRedirs, rfl⟩, follows⟩
  · rintro us cmd ⟨us₁, us₂, cmd', l, rfl, isLine, isRedirs, rfl⟩
    exact .block isLine isRedirs
  · rintro us rest cmd isTokens follows derived
    obtain ⟨us₁, us₂, cmd', l, rfl, isLine, isRedirs, rfl⟩ :=
      derived.block_of_starts isTokens follows found
    exact ⟨_, rfl, ⟨us₁, us₂, cmd', l, rfl, isLine, isRedirs, rfl⟩, follows⟩

theorem parseexec_succ (fuel s : Nat) :
    parseexec line (fuel + 1) s =
      if (peek line s [chr '(']).1 then parseblock line fuel (peek line s [chr '(']).2
      else
        parseredirs line fuel [] (peek line s [chr '(']).2 >>= fun p =>
          parseargs line fuel [] p.1 p.2 >>= fun q =>
            .ok (q.1.2.foldl .redir (.exec q.1.1), q.2) := by
  rw [parseexec]
  rfl

/-- **`parseexec` parses a command**: a block, or words and redirections. -/
theorem parseexec_step (nulFree : ∀ c ∈ line, c ≠ 0)
    (blocks : ∀ s ts, At line s ts → 4 * ts.length + 1 ≤ fuel → starts [chr '('] ts = true →
      Parses line Exec execEnd ts (parseblock line fuel s))
    (place : At line s ts) (enough : 4 * ts.length + 1 ≤ fuel) :
    Parses line Exec execEnd ts (parseexec line (fuel + 1) s) := by
  obtain ⟨isFound, place'⟩ := place.peek nulFree [chr '('] (by decide)
  rw [parseexec_succ, isFound]
  cases found : starts [chr '('] ts with
  | true => exact blocks _ ts place' enough found
  | false =>
      rw [if_neg (by decide)]
      have args := redirArgs_spec nulFree place' (show ts.length < fuel by omega) [] []
        ⟨nofun, nofun⟩
        fun s ts redirs place enough good => parseargs_spec nulFree place enough [] redirs
          (by decide) good
      have assoc : (parseredirs line fuel [] (peek line s [chr '(']).2 >>= fun p =>
          parseargs line fuel [] p.1 p.2 >>= fun q =>
            Outcome.ok (q.1.2.foldl Cmd.redir (.exec q.1.1), q.2)) =
          (parseredirs line fuel [] (peek line s [chr '(']).2 >>= fun p =>
            parseargs line fuel [] p.1 p.2) >>= fun q =>
              Outcome.ok (q.1.2.foldl Cmd.redir (.exec q.1.1), q.2) := by
        cases parseredirs line fuel [] (peek line s [chr '(']).2 <;> rfl
      rw [assoc]
      refine args.bind ?_ ?_
      · rintro us rest cmd isTokens follows derived
        obtain ⟨us₁, us₂, l₁, argv, l₂, rfl, isRedirs, isWords, few, -⟩ :=
          derived.simple_of_unlike isTokens found
        refine ⟨us₁ ++ us₂, rest, _, isTokens, follows,
          us₁, us₂, l₁, argv, l₂, rfl, isRedirs, isWords, rfl, ?_⟩
        rwa [List.length_nil, Nat.zero_add]
      · rintro ⟨argv, redirs⟩ s₁ us rest good isTokens place₁
          ⟨us₁, us₂, l₁, argv', l₂, rfl, isRedirs, isWords, isRead, few⟩ unique
        obtain ⟨isArgv, isRedirs'⟩ := Prod.mk.inj isRead
        have isArgv : argv.map (Word.text line) = argv' := isArgv
        have isRedirs' : redirs.map (Redir.read line) = l₁ ++ l₂ := isRedirs'
        have isTree : (redirs.foldl Cmd.redir (.exec argv)).read line =
            (l₁ ++ l₂).foldl .redir (.exec argv') := by
          rw [read_foldl, isRedirs', ← isArgv]
          rfl
        rw [List.length_nil, Nat.zero_add] at few
        refine ⟨proper_foldl good.1 good.2, us₁ ++ us₂, rest, isTokens, place₁, ?_, ?_⟩
        · rw [isTree]
          exact .simple isRedirs isWords few
        · rintro us' rest' cmd isTokens' follows derived
          obtain ⟨vs₁, vs₂, m₁, argv'', m₂, rfl, isRedirs'', isWords', few', rfl⟩ :=
            derived.simple_of_unlike isTokens' found
          obtain ⟨isSame, isRead'⟩ := unique (vs₁ ++ vs₂) rest' (argv'', m₁ ++ m₂) isTokens' follows
            ⟨vs₁, vs₂, m₁, argv'', m₂, rfl, isRedirs'', isWords', rfl,
              by rwa [List.length_nil, Nat.zero_add]⟩
          obtain ⟨isArgv', isRedirs₂⟩ := Prod.mk.inj isRead'
          refine ⟨isSame, ?_⟩
          rw [isTree, isArgv', isRedirs₂]
          exact congrArg₂ (fun l argv => List.foldl Cmd.redir (.exec argv) l) isRedirs' isArgv

theorem parsepipe_succ (fuel s : Nat) :
    parsepipe line (fuel + 1) s =
      parseexec line fuel s >>= fun p =>
        if (peek line p.2 [chr '|']).1 then
          parsepipe line fuel (gettoken line (peek line p.2 [chr '|']).2).2.2 >>= fun q =>
            .ok (.pipe p.1 q.1, q.2)
        else
          .ok (p.1, (peek line p.2 [chr '|']).2) := by
  rw [parsepipe]
  rfl

theorem Pipe.begins (pipe : Pipe us cmd) (follows : Follows pipeEnd rest) :
    ∃ us' rest' cmd', us ++ rest = us' ++ rest' ∧ Follows execEnd rest' ∧ Exec us' cmd' := by
  cases pipe with
  | single exec => exact ⟨us, rest, cmd, rfl, follows.mono (by decide), exec⟩
  | pipe exec isPipe => exact ⟨_, _, _, List.append_assoc .., .inr rfl, exec⟩

/-- **`parsepipe` parses a pipe.** -/
theorem parsepipe_step (nulFree : ∀ c ∈ line, c ≠ 0)
    (execs : ∀ s ts, At line s ts → 4 * ts.length + 2 ≤ fuel →
      Parses line Exec execEnd ts (parseexec line fuel s))
    (pipes : ∀ s ts, At line s ts → 4 * ts.length + 3 ≤ fuel →
      Parses line Pipe pipeEnd ts (parsepipe line fuel s))
    (place : At line s ts) (enough : 4 * ts.length + 2 ≤ fuel) :
    Parses line Pipe pipeEnd ts (parsepipe line (fuel + 1) s) := by
  rw [parsepipe_succ]
  refine (execs s ts place enough).bind ?_ ?_
  · rintro us rest cmd rfl follows derived
    exact derived.begins follows
  · rintro cmd s₁ us rest good rfl place₁ isExec unique
    obtain ⟨isFound, place₁'⟩ := place₁.peek nulFree [chr '|'] (by decide)
    dsimp only
    rw [isFound]
    cases found : starts [chr '|'] rest with
    | false =>
        rw [if_neg (by decide)]
        refine ⟨good, us, rest, rfl, place₁', .single isExec, ?_⟩
        rintro us' rest' cmd' isTokens follows derived
        cases derived with
        | single exec => exact unique us' rest' cmd' isTokens (follows.mono (by decide)) exec
        | pipe exec isPipe =>
            rw [List.append_assoc] at isTokens
            obtain ⟨rfl, -⟩ := unique _ _ _ isTokens (.inr rfl) exec
            rw [List.append_cancel_left isTokens] at found
            cases found
    | true =>
        rw [if_pos rfl]
        obtain ⟨rest₁, rfl⟩ := symbol_of_first (y := .bar) (by decide) found
        have spec := pipes _ rest₁ (place₁'.gettoken_symbol nulFree).2 (by
          simp only [List.length_append, List.length_cons] at enough
          omega)
        let Tail (us : List Token) (cmd' : Cmd (List Byte)) : Prop :=
          ∃ right, Pipe us right ∧ cmd' = .pipe (cmd.read line) right
        rw [List.append_cons]
        refine Spec.prepend Tail (Follows pipeEnd) (us ++ [.symbol .bar])
          (spec.bind ?_ ?_) ?_ ?_
        · rintro us' rest' cmd' rfl follows ⟨right, isPipe, -⟩
          exact ⟨us', rest', right, rfl, follows, isPipe⟩
        · rintro right s₂ us' rest' good' rfl place₂ isPipe unique'
          refine ⟨List.forall_mem_append.mpr ⟨good, good'⟩, us', rest', rfl, place₂,
            ⟨_, isPipe, rfl⟩, ?_⟩
          rintro us'' rest'' cmd'' isTokens follows ⟨right', isPipe', rfl⟩
          obtain ⟨rfl, rfl⟩ := unique' us'' rest'' right' isTokens follows isPipe'
          exact ⟨rfl, rfl⟩
        · rintro us' cmd' ⟨right, isPipe, rfl⟩
          rw [← List.append_cons]
          exact .pipe isExec isPipe
        · rintro us' rest' cmd' isTokens follows derived
          rw [← List.append_cons] at isTokens
          cases derived with
          | single exec =>
              obtain ⟨rfl, -⟩ := unique us' rest' cmd' isTokens (follows.mono (by decide)) exec
              rw [← List.append_cancel_left isTokens] at follows
              rcases follows with isEmpty | ends
              · cases isEmpty
              · cases ends
          | pipe exec isPipe =>
              rw [List.append_assoc] at isTokens
              obtain ⟨rfl, rfl⟩ := unique _ _ _ isTokens (.inr rfl) exec
              exact ⟨_, List.append_cons .., ⟨_, isPipe, rfl⟩, follows⟩

theorem parseline_succ (fuel s : Nat) :
    parseline line (fuel + 1) s =
      parsepipe line fuel s >>= fun p =>
        parsebacks line fuel p.1 p.2 >>= fun q =>
          if (peek line q.2 [chr ';']).1 then
            parseline line fuel (gettoken line (peek line q.2 [chr ';']).2).2.2 >>= fun r =>
              .ok (.list q.1 r.1, r.2)
          else
            .ok (q.1, (peek line q.2 [chr ';']).2) := by
  rw [parseline]
  rfl

/-- [';' line] behind a command. -/
def LineTail (cmd : Cmd (List Byte)) (us : List Token) (cmd' : Cmd (List Byte)) : Prop :=
  us = [] ∧ cmd' = cmd ∨
    ∃ us' right, us = .symbol .semi :: us' ∧ Line us' right ∧ cmd' = .list cmd right

theorem line_iff :
    Line us cmd' ↔ ∃ us₁ n us₂ cmd, us = us₁ ++ (List.replicate n (.symbol .amp) ++ us₂) ∧
      Pipe us₁ cmd ∧ LineTail (backs n cmd) us₂ cmd' := by
  constructor
  · intro isLine
    cases isLine with
    | single pipe n => exact ⟨_, n, [], _, by rw [List.append_nil], pipe, .inl ⟨rfl, rfl⟩⟩
    | list pipe n rest => exact ⟨_, n, _, _, rfl, pipe, .inr ⟨_, _, rfl, rest, rfl⟩⟩
  · rintro ⟨us₁, n, us₂, cmd, rfl, pipe, ⟨rfl, rfl⟩ | ⟨us', right, rfl, rest, rfl⟩⟩
    · rw [List.append_nil]
      exact .single pipe n
    · exact .list pipe n rest

theorem LineTail.follows (tail : LineTail cmd us cmd') (follows : Follows lineEnd rest) :
    Follows [chr ')', chr ';'] (us ++ rest) := by
  rcases tail with ⟨rfl, -⟩ | ⟨us', right, rfl, -⟩
  · exact follows.mono (by decide)
  · exact .inr rfl

theorem follows_amp {n : Nat} (follows : Follows [chr ')', chr ';'] rest) :
    Follows pipeEnd (List.replicate n (.symbol .amp) ++ rest) := by
  cases n with
  | zero => exact follows.mono (by decide)
  | succ n => exact .inr rfl

/-- [';' line] of `parseline` -/
theorem lineTail_spec (nulFree : ∀ c ∈ line, c ≠ 0)
    (lines : ∀ s ts, At line s ts → 4 * ts.length + 4 ≤ fuel →
      Parses line Line lineEnd ts (parseline line fuel s))
    (place : At line s ts) (enough : 4 * ts.length ≤ fuel) (cmd : Cmd Word)
    (good : cmd.Proper line) :
    Parses line (LineTail (cmd.read line)) lineEnd ts
      (if (peek line s [chr ';']).1 then
        parseline line fuel (gettoken line (peek line s [chr ';']).2).2.2 >>= fun r =>
          .ok (.list cmd r.1, r.2)
      else
        .ok (cmd, (peek line s [chr ';']).2)) := by
  obtain ⟨isFound, place'⟩ := place.peek nulFree [chr ';'] (by decide)
  rw [isFound]
  cases found : starts [chr ';'] ts with
  | false =>
      rw [if_neg (by decide)]
      refine ⟨good, [], ts, rfl, place', .inl ⟨rfl, rfl⟩, ?_⟩
      rintro us' rest' cmd' isTokens - (⟨rfl, rfl⟩ | ⟨us'', right, rfl, -⟩)
      · exact ⟨rfl, rfl⟩
      · rw [isTokens] at found
        cases found
  | true =>
      rw [if_pos rfl]
      obtain ⟨ts', rfl⟩ := symbol_of_first (y := .semi) (by decide) found
      have spec := lines _ ts' (place'.gettoken_symbol nulFree).2 (by
        rw [List.length_cons] at enough
        omega)
      let Tail (us : List Token) (cmd' : Cmd (List Byte)) : Prop :=
        ∃ right, Line us right ∧ cmd' = .list (cmd.read line) right
      refine Spec.prepend Tail (Follows lineEnd) [.symbol .semi]
        (spec.bind ?_ ?_) ?_ ?_
      · rintro us' rest' cmd' rfl follows ⟨right, isLine, -⟩
        exact ⟨us', rest', right, rfl, follows, isLine⟩
      · rintro right s₂ us' rest' good' rfl place₂ isLine unique
        refine ⟨List.forall_mem_append.mpr ⟨good, good'⟩, us', rest', rfl, place₂,
          ⟨_, isLine, rfl⟩, ?_⟩
        rintro us'' rest'' cmd'' isTokens follows ⟨right', isLine', rfl⟩
        obtain ⟨rfl, rfl⟩ := unique us'' rest'' right' isTokens follows isLine'
        exact ⟨rfl, rfl⟩
      · rintro us' cmd' ⟨right, isLine, rfl⟩
        exact .inr ⟨us', right, rfl, isLine, rfl⟩
      · rintro us' rest' cmd' isTokens follows (⟨rfl, rfl⟩ | ⟨us'', right, rfl, isLine, rfl⟩)
        · rw [show rest' = .symbol .semi :: ts' from isTokens.symm] at follows
          rcases follows with isEmpty | ends
          · cases isEmpty
          · cases ends
        · exact ⟨us'', rfl, ⟨right, isLine, rfl⟩, follows⟩

/-- **`parseline` parses a line.** -/
theorem parseline_step (nulFree : ∀ c ∈ line, c ≠ 0)
    (pipes : ∀ s ts, At line s ts → 4 * ts.length + 3 ≤ fuel →
      Parses line Pipe pipeEnd ts (parsepipe line fuel s))
    (lines : ∀ s ts, At line s ts → 4 * ts.length + 4 ≤ fuel →
      Parses line Line lineEnd ts (parseline line fuel s))
    (place : At line s ts) (enough : 4 * ts.length + 3 ≤ fuel) :
    Parses line Line lineEnd ts (parseline line (fuel + 1) s) := by
  rw [parseline_succ]
  refine (pipes s ts place enough).bind ?_ ?_
  · rintro us rest cmd rfl follows derived
    obtain ⟨us₁, n, us₂, cmd', rfl, isPipe, tail⟩ := line_iff.mp derived
    exact ⟨us₁, _, cmd', by simp only [List.append_assoc]; rfl,
      follows_amp (tail.follows follows), isPipe⟩
  · rintro cmd s₁ us rest good rfl place₁ isPipe unique
    rw [List.length_append] at enough
    -- What is left of the line behind the pipe.
    let Behind (us : List Token) (cmd' : Cmd (List Byte)) : Prop :=
      ∃ n us₂, us = List.replicate n (.symbol .amp) ++ us₂ ∧
        LineTail (backs n (cmd.read line)) us₂ cmd'
    refine Spec.prepend Behind (Follows lineEnd) us
      ((parsebacks_spec nulFree place₁ (by omega) cmd good).bind ?_ ?_) ?_ ?_
    · rintro us' rest' cmd' rfl follows ⟨n, us₂, rfl, tail⟩
      exact ⟨_, us₂ ++ rest', _, List.append_assoc .., (tail.follows follows).unlike (by decide),
        n, rfl, rfl⟩
    · rintro cmd' s₂ us' rest' good' rfl place₂ ⟨n, rfl, isBacks⟩ unique'
      rw [List.length_append] at enough
      refine Spec.prepend _ _ _ (lineTail_spec nulFree lines place₂ (by omega) cmd' good') ?_ ?_
      · intro us'' cmd'' tail
        exact ⟨n, us'', rfl, isBacks ▸ tail⟩
      · rintro us'' rest'' cmd'' isTokens follows ⟨n', us₂, rfl, tail⟩
        rw [List.append_assoc] at isTokens
        obtain ⟨isSame, isBacks'⟩ := unique' _ (us₂ ++ rest'') _ isTokens
          ((tail.follows follows).unlike (by decide)) ⟨n', rfl, rfl⟩
        refine ⟨us₂, by rw [isSame], ?_, follows⟩
        rw [← isBacks']
        exact tail
    · rintro us' cmd' ⟨n, us₂, rfl, tail⟩
      exact line_iff.mpr ⟨us, n, us₂, _, rfl, isPipe, tail⟩
    · rintro us' rest' cmd' isTokens follows derived
      obtain ⟨us₁, n, us₂, cmd'', rfl, isPipe', tail⟩ := line_iff.mp derived
      have isTokens' : us ++ rest = us₁ ++ (List.replicate n (.symbol .amp) ++ (us₂ ++ rest')) := by
        rw [isTokens]
        simp only [List.append_assoc]
      obtain ⟨rfl, rfl⟩ := unique us₁ _ cmd'' isTokens' (follows_amp (tail.follows follows)) isPipe'
      exact ⟨_, rfl, ⟨n, us₂, rfl, tail⟩, follows⟩

/-- The parse functions, with enough room for the tokens that are left. -/
theorem parse_spec (nulFree : ∀ c ∈ line, c ≠ 0) (fuel : Nat) :
    ∀ s ts, At line s ts →
      (4 * ts.length + 4 ≤ fuel → Parses line Line lineEnd ts (parseline line fuel s)) ∧
      (4 * ts.length + 3 ≤ fuel → Parses line Pipe pipeEnd ts (parsepipe line fuel s)) ∧
      (4 * ts.length + 2 ≤ fuel → Parses line Exec execEnd ts (parseexec line fuel s)) ∧
      (4 * ts.length + 1 ≤ fuel → starts [chr '('] ts = true →
        Parses line Exec execEnd ts (parseblock line fuel s)) := by
  induction fuel with
  | zero =>
      intro s ts _
      exact ⟨by omega, by omega, by omega, by omega⟩
  | succ fuel ih =>
      intro s ts place
      have lines := fun s ts place => (ih s ts place).1
      have pipes := fun s ts place => (ih s ts place).2.1
      have execs := fun s ts place => (ih s ts place).2.2.1
      have blocks := fun s ts place => (ih s ts place).2.2.2
      exact ⟨fun enough => parseline_step nulFree pipes lines place (by omega),
        fun enough => parsepipe_step nulFree execs pipes place (by omega),
        fun enough => parseexec_step nulFree blocks place (by omega),
        fun enough => parseblock_step nulFree lines place (by omega)⟩

end Functions

end Xv6.Shell
