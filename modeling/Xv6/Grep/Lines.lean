import Xv6.Fs.Path
import Xv6.Grep.Matcher

/-!
Contract: the loop of `grep` over the lines of its input (`user/grep.c`).

Owns: `grep` with its buffer, the lines of a stream, and which of them `grep` comes to see.

Does not own: where the stream comes from. How `read` divides it is chosen by the environment.
-/

namespace Xv6.Grep

open Xv6.Format
open Xv6.Fs (cstring)
open Function

def newline : Byte := 0x0a

def bufSize : Nat := 1024

/-! ## The program -/

/-- `read(fd, p, n)` with `rest` left of the stream: some of it, nothing at its end or if `n`
is 0. -/
def read (rest : List Byte) (n choice : Nat) : List Byte := rest.take (min n (choice + 1))

/-- `strchr` from `s` on; the NUL is found before `bufSize` rounds. -/
def strchr (buf : Bytes) (c : Byte) : Nat → Nat → Option Nat
  | 0, _ => none
  | rounds + 1, s =>
      if buf s = 0 then none
      else if buf s = c then some s
      else strchr buf c rounds (s + 1)

def place (buf : Bytes) (p : Nat) (data : Bytes) (n : Nat) : Bytes := fun i =>
  if p ≤ i ∧ i < p + n then data (i - p) else buf i

/-- The loop over the lines in the buffer from `p` on, with what has been written: the buffer,
`p` and what has been written at its end. -/
def lineLoop (pattern : List Byte) : Nat → Bytes → Nat → List Byte → Bytes × Nat × List Byte
  | 0, buf, p, out => (buf, p, out)
  | rounds + 1, buf, p, out =>
      match strchr buf newline bufSize p with
      | none => (buf, p, out)
      | some q =>
          let buf := update buf q 0
          if matchText pattern (cstring (fun i => buf (p + i)) bufSize) then
            let buf := update buf q newline
            lineLoop pattern rounds buf (q + 1)
              (out ++ firstBytes (fun i => buf (p + i)) (q + 1 - p))
          else
            lineLoop pattern rounds buf (q + 1) out

/-- The loop over the reads, with what has been written at its end, if it ends in this number of
rounds. -/
def readLoop (pattern : List Byte) :
    Nat → List Byte → List Nat → Bytes → Nat → List Byte → Option (List Byte)
  | 0, _, _, _, _, _ => none
  | rounds + 1, rest, choices, buf, m, out =>
      let chunk := read rest (bufSize - m - 1) (choices.headD 0)
      let n := chunk.length
      if n > 0 then
        let buf := place buf m (fun i => chunk.getD i 0) n
        let m := m + n
        let buf := update buf m 0
        let (buf, p, out) := lineLoop pattern bufSize buf 0 out
        let (buf, m) :=
          if m > 0 then
            -- `memmove(buf, p, m)`
            (place buf 0 (fun i => buf (p + i)) (m - p), m - p)
          else
            (buf, m)
        readLoop pattern rounds (rest.drop n) choices.tail buf m out
      else
        some out

/-- What `grep` writes. Every round but the last one reads a byte at least. -/
def grep (pattern stream : List Byte) (choices : List Nat) : Option (List Byte) :=
  readLoop pattern (stream.length + 1) stream choices (fun _ => 0) 0 []

/-! ## Lines -/

/-- The lines of a stream that end in a newline, and what follows the last newline. -/
def splitLines : List Byte → List (List Byte) × List Byte
  | [] => ([], [])
  | b :: stream =>
      if b = newline then
        ([] :: (splitLines stream).1, (splitLines stream).2)
      else
        match splitLines stream with
        | ([], tail) => ([], b :: tail)
        | (line :: lines, tail) => ((b :: line) :: lines, tail)

def lastLine (stream : List Byte) : List (List Byte) :=
  if (splitLines stream).2 = [] then [] else [(splitLines stream).2]

def lines (stream : List Byte) : List (List Byte) := (splitLines stream).1 ++ lastLine stream

/-- A line fits into the buffer with its newline and a NUL. -/
def Fits (line : List Byte) : Prop := line.length + 2 ≤ bufSize

instance (line : List Byte) : Decidable (Fits line) := inferInstanceAs (Decidable (_ ≤ _))

/-- The lines before the first one that does not fit, but for a last one without newline. -/
def seen (stream : List Byte) : List (List Byte) :=
  (splitLines stream).1.takeWhile fun line => Fits line

def unseen (stream : List Byte) : List (List Byte) :=
  ((splitLines stream).1.dropWhile fun line => Fits line) ++ lastLine stream

def printed (pattern : List Byte) (lines : List (List Byte)) : List Byte :=
  (lines.filter (matchText pattern)).flatMap fun line => line ++ [newline]

theorem lines_eq (stream : List Byte) : lines stream = seen stream ++ unseen stream := by
  rw [lines, seen, unseen, ← List.append_assoc, List.takeWhile_append_dropWhile]

variable {pattern line tail stream content rest text : List Byte} {buf : Bytes} {p m : Nat}

theorem splitLines_line (whole : newline ∉ line) (stream : List Byte) :
    splitLines (line ++ newline :: stream) =
      (line :: (splitLines stream).1, (splitLines stream).2) := by
  induction line with
  | nil => rw [List.nil_append, splitLines, if_pos rfl]
  | cons b line ih =>
      rw [List.mem_cons, not_or] at whole
      rw [List.cons_append, splitLines, if_neg (Ne.symm whole.1), ih whole.2]

theorem splitLines_tail (whole : newline ∉ tail) : splitLines tail = ([], tail) := by
  induction tail with
  | nil => rfl
  | cons b tail ih =>
      rw [List.mem_cons, not_or] at whole
      rw [splitLines, if_neg (Ne.symm whole.1), ih whole.2]

theorem seen_line (whole : newline ∉ line) (stream : List Byte) :
    seen (line ++ newline :: stream) = if Fits line then line :: seen stream else [] := by
  simp only [seen, splitLines_line whole, List.takeWhile_cons, decide_eq_true_iff]

theorem seen_tail (whole : newline ∉ tail) : seen tail = [] := by
  rw [seen, splitLines_tail whole]
  rfl

/-- If the buffer is full without a newline in it, nothing more is seen. -/
theorem seen_full (whole : newline ∉ line) (isFull : bufSize ≤ line.length + 1)
    (rest : List Byte) : seen (line ++ rest) = [] := by
  by_cases isIn : newline ∈ rest
  · obtain ⟨more, rest, rfl, wholeMore⟩ := List.eq_append_cons_of_mem isIn
    have whole' : newline ∉ line ++ more := by
      rw [List.mem_append, not_or]
      exact ⟨whole, wholeMore⟩
    rw [← List.append_assoc, seen_line whole', if_neg]
    unfold Fits
    rw [List.length_append]
    omega
  · refine seen_tail ?_
    rw [List.mem_append, not_or]
    exact ⟨whole, isIn⟩

theorem printed_cons (pattern line : List Byte) (more : List (List Byte)) :
    printed pattern (line :: more) =
      (if matchText pattern line then line ++ [newline] else []) ++ printed pattern more := by
  rw [printed, List.filter_cons]
  split
  · rfl
  · rfl

/-! ## The buffer -/

def At (buf : Bytes) (p : Nat) (text : List Byte) : Prop :=
  ∀ i b, text[i]? = some b → buf (p + i) = b

theorem At.left {left right : List Byte} (isAt : At buf p (left ++ right)) : At buf p left := by
  intro i b isByte
  refine isAt i b ?_
  rw [List.getElem?_append_left (List.getElem?_eq_some_iff.mp isByte).1]
  exact isByte

theorem At.right {left right : List Byte} (isAt : At buf p (left ++ right)) :
    At buf (p + left.length) right := by
  intro i b isByte
  rw [Nat.add_assoc]
  refine isAt (left.length + i) b ?_
  rw [List.getElem?_append_right (Nat.le_add_right ..), Nat.add_sub_cancel_left]
  exact isByte

theorem At.head {b : Byte} (isAt : At buf p (b :: text)) : buf p = b :=
  isAt 0 b rfl

theorem At.next {b : Byte} (isAt : At buf p (b :: text)) :
    At buf (p + 1) text := by
  have isTail : At buf p ([b] ++ text) := isAt
  exact isTail.right

theorem At.update {q : Nat} (isAt : At buf p text) (outside : q < p ∨ p + text.length ≤ q)
    (b : Byte) : At (update buf q b) p text := by
  intro i b' isByte
  have inside := (List.getElem?_eq_some_iff.mp isByte).1
  rw [update_of_ne (by omega)]
  exact isAt i b' isByte

theorem strchr_found (rounds : Nat) (enough : line.length < rounds)
    (isAt : At buf p (line ++ newline :: rest)) (whole : newline ∉ line) (nulFree : 0 ∉ line) :
    strchr buf newline rounds p = some (p + line.length) := by
  induction rounds generalizing p line with
  | zero => exact absurd enough (Nat.not_lt_zero _)
  | succ rounds ih =>
      cases line with
      | nil =>
          have isNewline : buf p = newline := isAt.head
          rw [strchr, isNewline, if_neg (by decide), if_pos rfl]
          rfl
      | cons b line =>
          rw [List.mem_cons, not_or] at whole nulFree
          have isByte : buf p = b := isAt.head
          rw [strchr, isByte, if_neg (Ne.symm nulFree.1), if_neg (Ne.symm whole.1),
            ih (Nat.lt_of_succ_lt_succ enough) isAt.next whole.2 nulFree.2,
            List.length_cons]
          congr 1
          omega

theorem strchr_absent (rounds : Nat) (isAt : At buf p tail) (atEnd : buf (p + tail.length) = 0)
    (whole : newline ∉ tail) : strchr buf newline rounds p = none := by
  induction rounds generalizing p tail with
  | zero => rfl
  | succ rounds ih =>
      cases tail with
      | nil =>
          have isEnd : buf p = 0 := atEnd
          rw [strchr, if_pos isEnd]
      | cons b tail =>
          rw [List.mem_cons, not_or] at whole
          have atEnd' : buf (p + 1 + tail.length) = 0 := by
            rw [List.length_cons] at atEnd
            rwa [Nat.add_assoc, Nat.add_comm 1]
          rw [strchr, isAt.head, if_neg (Ne.symm whole.1),
            ih isAt.next atEnd' whole.2, ite_self]

theorem cstring_at {n : Nat} (inside : line.length < n) (isAt : At buf p line)
    (atEnd : buf (p + line.length) = 0) (nulFree : 0 ∉ line) :
    cstring (fun i => buf (p + i)) n = line := by
  induction n generalizing p line with
  | zero => exact absurd inside (Nat.not_lt_zero _)
  | succ n ih =>
      cases line with
      | nil =>
          have isEnd : buf (p + 0) = 0 := atEnd
          rw [cstring, if_pos isEnd]
      | cons b line =>
          rw [List.mem_cons, not_or] at nulFree
          have isByte : buf (p + 0) = b := isAt.head
          have shifted : (fun i => buf (p + (i + 1))) = fun i => buf (p + 1 + i) := by
            funext i
            rw [Nat.add_assoc, Nat.add_comm 1]
          have atEnd' : buf (p + 1 + line.length) = 0 := by
            rw [List.length_cons] at atEnd
            rwa [Nat.add_assoc, Nat.add_comm 1]
          rw [cstring, isByte, if_neg (Ne.symm nulFree.1), shifted,
            ih (Nat.lt_of_succ_lt_succ inside) isAt.next atEnd' nulFree.2]

theorem firstBytes_at (isAt : At buf p text) :
    firstBytes (fun i => buf (p + i)) text.length = text := by
  refine List.ext_getElem? fun i => ?_
  rcases Nat.lt_or_ge i text.length with inside | outside
  · rw [getElem?_firstBytes _ inside, List.getElem?_eq_getElem inside,
      isAt i _ (List.getElem?_eq_getElem inside)]
  · rw [List.getElem?_eq_none (by rw [firstBytes_length]; exact outside),
      List.getElem?_eq_none outside]

theorem At.place (isAt : At buf p text) (chunk : List Byte) :
    At (place buf (p + text.length) (fun i => chunk.getD i 0) chunk.length) p (text ++ chunk) := by
  intro i b isByte
  rcases Nat.lt_or_ge i text.length with inside | after
  · rw [List.getElem?_append_left inside] at isByte
    rw [Grep.place, if_neg (by omega)]
    exact isAt i b isByte
  · rw [List.getElem?_append_right after] at isByte
    have inChunk := (List.getElem?_eq_some_iff.mp isByte).1
    have shifted : p + i - (p + text.length) = i - text.length := by omega
    rw [Grep.place, if_pos ⟨by omega, by omega⟩, shifted, List.getD_eq_getElem?_getD, isByte]
    rfl

theorem At.front (isAt : At buf p text) :
    At (Grep.place buf 0 (fun i => buf (p + i)) text.length) 0 text := by
  intro i b isByte
  have inside := (List.getElem?_eq_some_iff.mp isByte).1
  rw [Grep.place, if_pos ⟨Nat.zero_le _, by omega⟩, Nat.zero_add, Nat.sub_zero]
  exact isAt i b isByte

/-! ## The loops -/

/-- One line of the buffer: what the loop writes for it, and the buffer it goes on with, in which
nothing after the newline has changed. -/
theorem lineLoop_line {more : List Byte} (pattern : List Byte) (rounds : Nat) (out : List Byte)
    (isAt : At buf p (line ++ newline :: more)) (whole : newline ∉ line) (nulFree : 0 ∉ line)
    (inBuffer : line.length < bufSize) :
    ∃ b, lineLoop pattern (rounds + 1) buf p out =
      lineLoop pattern rounds (update buf (p + line.length) b) (p + line.length + 1)
        (out ++ if matchText pattern line then line ++ [newline] else []) := by
  have isLine : cstring (fun i => update buf (p + line.length) 0 (p + i)) bufSize = line :=
    cstring_at inBuffer (isAt.left.update (.inr (Nat.le_refl _)) 0) (update_self ..)
      nulFree
  have isWritten : firstBytes (fun i => update (update buf (p + line.length) 0)
      (p + line.length) newline (p + i)) (p + line.length + 1 - p) = line ++ [newline] := by
    have isText : At buf p (line ++ [newline]) := by
      have isSame : line ++ newline :: more = line ++ [newline] ++ more := by
        rw [List.append_assoc, List.singleton_append]
      exact At.left (isSame ▸ isAt)
    have sameByte : update buf (p + line.length) newline = buf := by
      rw [← isAt.right.head, update_eq_self]
    have isLength : p + line.length + 1 - p = (line ++ [newline]).length := by
      rw [List.length_append, List.length_singleton]
      omega
    rw [update_idem, sameByte, isLength, firstBytes_at isText]
  rw [lineLoop, strchr_found bufSize inBuffer isAt whole nulFree]
  dsimp only
  rw [isLine, isWritten]
  by_cases isMatch : matchText pattern line = true
  · rw [if_pos isMatch, if_pos isMatch, update_idem]
    exact ⟨newline, rfl⟩
  · rw [if_neg isMatch, if_neg isMatch, List.append_nil]
    exact ⟨0, rfl⟩

/-- The loop over the lines: it writes those that match, and leaves what follows the last newline
in the buffer. -/
theorem lineLoop_spec (pattern : List Byte) (rounds : Nat) (out : List Byte)
    (enough : content.length < rounds)
    (isAt : At buf p content) (atEnd : buf (p + content.length) = 0) (nulFree : 0 ∉ content)
    (inBuffer : content.length < bufSize) :
    ∃ buf' tail emitted, lineLoop pattern rounds buf p out =
        (buf', p + (content.length - tail.length), out ++ emitted) ∧
      At buf' (p + (content.length - tail.length)) tail ∧ tail.length ≤ content.length ∧
      newline ∉ tail ∧ 0 ∉ tail ∧
      ∀ rest, printed pattern (seen (content ++ rest)) =
        emitted ++ printed pattern (seen (tail ++ rest)) := by
  induction rounds generalizing buf p content out with
  | zero => exact absurd enough (Nat.not_lt_zero _)
  | succ rounds ih =>
      by_cases isIn : newline ∈ content
      · obtain ⟨line, more, rfl, whole⟩ := List.eq_append_cons_of_mem isIn
        have isLength : (line ++ newline :: more).length = line.length + 1 + more.length := by
          rw [List.length_append, List.length_cons]
          omega
        rw [isLength] at enough atEnd inBuffer ⊢
        rw [List.mem_append, List.mem_cons, not_or, not_or] at nulFree
        obtain ⟨nulFreeLine, -, nulFreeMore⟩ := nulFree
        obtain ⟨b, isNext⟩ :=
          lineLoop_line pattern rounds out isAt whole nulFreeLine (by omega)
        have atNext : At (update buf (p + line.length) b) (p + line.length + 1) more :=
          isAt.right.next.update (.inl (by omega)) b
        have endNext :
            update buf (p + line.length) b (p + line.length + 1 + more.length) = 0 := by
          rw [update_of_ne (by omega), ← atEnd]
          congr 1
          omega
        obtain ⟨buf', tail, emitted, isRun, atTail, notLonger, wholeTail, nulFreeTail, writes⟩ :=
          ih _ (by omega) atNext endNext nulFreeMore (by omega)
        have isPlace : p + line.length + 1 + (more.length - tail.length) =
            p + (line.length + 1 + more.length - tail.length) := by omega
        rw [isPlace] at isRun atTail
        rw [List.append_assoc] at isRun
        refine ⟨buf', tail, _, isNext.trans isRun, atTail, by omega, wholeTail, nulFreeTail, ?_⟩
        intro rest
        have fits : Fits line := by
          unfold Fits
          omega
        rw [List.append_assoc, List.cons_append, seen_line whole, if_pos fits, printed_cons,
          writes rest, List.append_assoc]
      · rw [lineLoop, strchr_absent bufSize isAt atEnd isIn]
        refine ⟨buf, content, [], ?_, ?_, Nat.le_refl _, isIn, nulFree, fun rest => rfl⟩
        · rw [Nat.sub_self, List.append_nil]
          rfl
        · rw [Nat.sub_self]
          exact isAt

theorem read_spec (rest : List Byte) (n choice : Nat) :
    read rest n choice ++ rest.drop (read rest n choice).length = rest ∧
      (read rest n choice).length ≤ n ∧
      ((read rest n choice).length = 0 → rest = [] ∨ n = 0) := by
  have isLength : (read rest n choice).length = min (min n (choice + 1)) rest.length :=
    List.length_take
  refine ⟨?_, by omega, fun nothing => ?_⟩
  · exact List.prefix_iff_eq_append.mp (List.take_prefix ..)
  · rw [← List.length_eq_zero_iff]
    omega

/-- The loop over the reads, with a line begun in the buffer: at its end it has written those of the
lines it came to see that match. -/
theorem readLoop_spec (rounds : Nat) (choices : List Nat) (out : List Byte)
    (enough : rest.length < rounds) (isAt : At buf 0 line) (whole : newline ∉ line)
    (nulFree : 0 ∉ line ++ rest) (inBuffer : line.length < bufSize) :
    readLoop pattern rounds rest choices buf line.length out =
      some (out ++ printed pattern (seen (line ++ rest))) := by
  induction rounds generalizing rest choices buf line out with
  | zero => exact absurd enough (Nat.not_lt_zero _)
  | succ rounds ih =>
      obtain ⟨divided, inRoom, ends⟩ :=
        read_spec rest (bufSize - line.length - 1) (choices.headD 0)
      rw [readLoop]
      dsimp only
      generalize read rest (bufSize - line.length - 1) (choices.headD 0) = chunk at *
      generalize rest.drop chunk.length = rest' at *
      subst divided
      by_cases isRead : chunk.length > 0
      · rw [if_pos isRead]
        have isLength : line.length + chunk.length = (line ++ chunk).length :=
          List.length_append.symm
        have isPlaced := isAt.place chunk
        rw [Nat.zero_add] at isPlaced
        rw [← List.append_assoc] at nulFree ⊢
        rw [isLength]
        have nulFree' := nulFree
        rw [List.mem_append, not_or] at nulFree'
        have outside : 0 + (line ++ chunk).length ≤ (line ++ chunk).length := by omega
        obtain ⟨buf', tail, emitted, isRun, atTail, notLonger, wholeTail, nulFreeTail, writes⟩ :=
          lineLoop_spec pattern bufSize out (by omega) (isPlaced.update (.inr outside) 0)
            (by rw [Nat.zero_add, update_self]) nulFree'.1 (by omega)
        rw [isRun]
        dsimp only
        have isLeft : (line ++ chunk).length - (0 + ((line ++ chunk).length - tail.length)) =
            tail.length := by omega
        rw [if_pos (by omega), isLeft]
        dsimp only
        rw [List.length_append] at enough
        rw [ih choices.tail (out ++ emitted) (by omega) atTail.front wholeTail ?_
          (by omega), writes rest', List.append_assoc]
        rw [List.mem_append, not_or]
        exact ⟨nulFreeTail, nulFree'.2⟩
      · rw [if_neg isRead]
        -- Either the stream is at its end or the line fills the buffer.
        have nothing : seen (line ++ (chunk ++ rest')) = [] := by
          rcases ends (by omega) with atEnd | isFull
          · rw [atEnd, List.append_nil]
            exact seen_tail whole
          · exact seen_full whole (by omega) _
        rw [nothing]
        exact congrArg some (List.append_nil out).symm

/-- What `grep` writes: of the lines it comes to see, those that match. -/
theorem grep_eq (pattern : List Byte) (choices : List Nat) (nulFree : 0 ∉ stream) :
    grep pattern stream choices = some (printed pattern (seen stream)) := by
  have nothing : At (fun _ => 0) 0 [] := by
    intro i b isByte
    cases isByte
  exact readLoop_spec (stream.length + 1) choices [] (Nat.lt_succ_self _) nothing List.not_mem_nil
    nulFree (by decide)

theorem printed_append (pattern : List Byte) (left right : List (List Byte)) :
    printed pattern (left ++ right) = printed pattern left ++ printed pattern right := by
  rw [printed, List.filter_append, List.flatMap_append]
  rfl

theorem printed_eq_nil (pattern : List Byte) (lines : List (List Byte)) :
    printed pattern lines = [] ↔ ∀ line ∈ lines, matchText pattern line = false := by
  simp [printed]

/-- **The matching lines.** However `read` divides the stream, `grep` ends, and it has written the
matching lines if and only if no line that it does not come to see matches: neither a last one
without newline nor one from the first that does not fit into the buffer on. -/
theorem grep_prints (pattern stream : List Byte) (choices : List Nat) (nulFree : 0 ∉ stream) :
    ∃ out, grep pattern stream choices = some out ∧
      (out = printed pattern (lines stream) ↔
        ∀ line ∈ unseen stream, matchText pattern line = false) := by
  refine ⟨_, grep_eq pattern choices nulFree, ?_⟩
  rw [lines_eq, printed_append, ← printed_eq_nil]
  exact List.self_eq_append_right

/-- Two lines, of which the second one matches; the stream comes in two parts. -/
theorem grep_prints_second :
    0 ∉ ([0x61, 0x0a, 0x62, 0x0a] : List Byte) ∧ ∃ out,
      grep [0x62] [0x61, 0x0a, 0x62, 0x0a] [2] = some out ∧
        (out = printed [0x62] (lines [0x61, 0x0a, 0x62, 0x0a]) ↔
          ∀ line ∈ unseen [0x61, 0x0a, 0x62, 0x0a], matchText [0x62] line = false) :=
  ⟨by decide, grep_prints [0x62] [0x61, 0x0a, 0x62, 0x0a] [2] (by decide)⟩

/-- The line "a" matches, but it has no newline: nothing is written. -/
theorem grep_misses_last :
    0 ∉ ([0x61] : List Byte) ∧ grep [0x61] [0x61] [] = some [] ∧
      printed [0x61] (lines [0x61]) = [0x61, 0x0a] := by
  refine ⟨by decide, ?_, ?_⟩ <;> decide +kernel

end Xv6.Grep
