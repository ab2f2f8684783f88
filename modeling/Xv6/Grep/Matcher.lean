import Xv6.Format.Codec

/-!
Contract: the regular expressions of `grep` (`user/grep.c`).

A string is the list of the bytes before its NUL; a pointer into it is what is left of it.

Owns: `match`, `matchhere` and `matchstar`, the reading of a pattern as items, their language,
and that `match` searches the text for a word of it.
-/

namespace Xv6.Grep

open Xv6.Format
open scoped Computability

def caret : Byte := 0x5e

def star : Byte := 0x2a

def period : Byte := 0x2e

def dollar : Byte := 0x24

/-! ## The functions -/

/-- `matchstar`: search for `c*re` at the beginning of the text, where `here` searches for `re`. -/
def matchstar (here : List Byte → Bool) (c : Byte) : List Byte → Bool
  | [] => here []
  | b :: text => here (b :: text) || (decide (b = c ∨ c = period) && matchstar here c text)

/-- `if(*text!='\0' && (re[0]=='.' || re[0]==*text)) return matchhere(re+1, text+1); return 0;` -/
def matchone (here : List Byte → Bool) (c : Byte) : List Byte → Bool
  | [] => false
  | b :: text => decide (c = period ∨ c = b) && here text

def matchhere : List Byte → List Byte → Bool
  | [], _ => true
  | [c], text => if c = dollar then text.isEmpty else matchone (matchhere []) c text
  | c :: c' :: re, text =>
      if c' = star then
        matchstar (matchhere re) c text
      else
        matchone (matchhere (c' :: re)) c text

/-- The loop of `match`, which looks at the empty string, too. -/
def matchLoop (re : List Byte) : List Byte → Bool
  | [] => matchhere re []
  | b :: text => matchhere re (b :: text) || matchLoop re text

def matchText (re text : List Byte) : Bool :=
  if re.head? = some caret then matchhere re.tail text else matchLoop re text

/-! ## Patterns -/

inductive Item where
  | any
  | literal (c : Byte)
  /-- Zero or more characters, each equal to `c`, or any if `c` is '.'. -/
  | repeated (c : Byte)

def Item.single (c : Byte) : Item := if c = period then .any else .literal c

structure Pattern where
  /-- It begins with '^'. -/
  anchored : Bool
  items : List Item
  /-- It ends with '$'. -/
  atEnd : Bool

/-- The items of a pattern, and whether a '$' follows them. -/
def readItems : List Byte → List Item × Bool
  | [] => ([], false)
  | [c] => if c = dollar then ([], true) else ([.single c], false)
  | c :: c' :: re =>
      if c' = star then
        (.repeated c :: (readItems re).1, (readItems re).2)
      else
        (.single c :: (readItems (c' :: re)).1, (readItems (c' :: re)).2)

def Pattern.read (re : List Byte) : Pattern :=
  let anchored := decide (re.head? = some caret)
  let (items, atEnd) := readItems (if anchored then re.tail else re)
  { anchored, items, atEnd }

/-- The strings of one character that fits `c`. -/
def fitting (c : Byte) : Language Byte := {w | ∃ b, w = [b] ∧ (c = period ∨ b = c)}

def Item.language : Item → Language Byte
  | .any => {w | ∃ b, w = [b]}
  | .literal c => {[c]}
  | .repeated c => (fitting c)∗

def language (items : List Item) : Language Byte := (items.map Item.language).prod

/-! ## Searching -/

/-- The text begins with a word of the language and goes on with a text that `rest` accepts. -/
def Begins (l : Language Byte) (rest : List Byte → Prop) (text : List Byte) : Prop :=
  ∃ first after, text = first ++ after ∧ first ∈ l ∧ rest after

variable {here : List Byte → Bool} {c b : Byte} {re text : List Byte} {l l' : Language Byte}
  {rest rest' : List Byte → Prop}

theorem begins_one : Begins 1 rest text ↔ rest text := by
  constructor
  · rintro ⟨first, after, rfl, isEmpty, accepted⟩
    rw [(Language.mem_one first).mp isEmpty]
    exact accepted
  · exact fun accepted => ⟨[], text, rfl, Language.nil_mem_one, accepted⟩

theorem begins_mul : Begins (l * l') rest text ↔ Begins l (Begins l' rest) text := by
  constructor
  · rintro ⟨first, after, rfl, isWord, accepted⟩
    obtain ⟨left, isLeft, right, isRight, rfl⟩ := Language.mem_mul.mp isWord
    exact ⟨left, right ++ after, List.append_assoc .., isLeft, right, after, rfl, isRight, accepted⟩
  · rintro ⟨left, _, rfl, isLeft, right, after, rfl, isRight, accepted⟩
    exact ⟨left ++ right, after, (List.append_assoc ..).symm,
      Language.append_mem_mul isLeft isRight, accepted⟩

theorem begins_add : Begins (l + l') rest text ↔ Begins l rest text ∨ Begins l' rest text := by
  constructor
  · rintro ⟨first, after, rfl, isLeft | isRight, accepted⟩
    · exact .inl ⟨first, after, rfl, isLeft, accepted⟩
    · exact .inr ⟨first, after, rfl, isRight, accepted⟩
  · rintro (⟨first, after, rfl, isLeft, accepted⟩ | ⟨first, after, rfl, isRight, accepted⟩)
    · exact ⟨first, after, rfl, .inl isLeft, accepted⟩
    · exact ⟨first, after, rfl, .inr isRight, accepted⟩

theorem Begins.congr (same : ∀ after, rest after ↔ rest' after) :
    Begins l rest text ↔ Begins l rest' text :=
  exists₂_congr fun _ after => and_congr_right fun _ => and_congr_right fun _ => same after

/-- An empty text has no first character. -/
theorem begins_fitting_nil : ¬ Begins (fitting c) rest [] := by
  rintro ⟨first, after, isText, ⟨b, rfl, -⟩, -⟩
  cases isText

theorem begins_fitting_cons :
    Begins (fitting c) rest (b :: text) ↔ (c = period ∨ b = c) ∧ rest text := by
  constructor
  · rintro ⟨first, after, isText, ⟨b', rfl, fits⟩, accepted⟩
    cases isText
    exact ⟨fits, accepted⟩
  · exact fun ⟨fits, accepted⟩ => ⟨[b], text, rfl, ⟨b, rfl, fits⟩, accepted⟩

theorem language_single (c : Byte) : (Item.single c).language = fitting c := by
  unfold Item.single fitting
  split
  · rename_i isPeriod
    ext w
    exact ⟨fun ⟨b, isWord⟩ => ⟨b, isWord, .inl isPeriod⟩, fun ⟨b, isWord, _⟩ => ⟨b, isWord⟩⟩
  · rename_i notPeriod
    ext w
    constructor
    · rintro rfl
      exact ⟨c, rfl, .inr rfl⟩
    · rintro ⟨b, rfl, isPeriod | rfl⟩
      · exact absurd isPeriod notPeriod
      · rfl

theorem matchone_iff (text : List Byte) :
    matchone here c text ↔ Begins (fitting c) (fun after => here after) text := by
  cases text with
  | nil => exact iff_of_false Bool.false_ne_true begins_fitting_nil
  | cons b text =>
      rw [begins_fitting_cons, matchone, Bool.and_eq_true, decide_eq_true_iff, eq_comm (a := b)]

/-- The loop stops at the first character that does not fit. -/
theorem matchstar_iff (text : List Byte) :
    matchstar here c text ↔ Begins (fitting c)∗ (fun after => here after) text := by
  -- Zero characters, or one and then more.
  rw [← Language.one_add_self_mul_kstar_eq_kstar (fitting c), begins_add, begins_one, begins_mul]
  induction text with
  | nil =>
      refine (or_iff_left ?_).symm
      exact begins_fitting_nil
  | cons b text ih =>
      rw [begins_fitting_cons, ← Language.one_add_self_mul_kstar_eq_kstar (fitting c), begins_add,
        begins_one, begins_mul, ← ih, matchstar, Bool.or_eq_true,
        Bool.and_eq_true, decide_eq_true_iff, or_comm (a := c = period)]

theorem begins_language_cons (item : Item) (items : List Item) :
    Begins (language (item :: items)) rest text ↔
      Begins item.language (Begins (language items) rest) text := by
  rw [language, List.map_cons, List.prod_cons, begins_mul, language]

/-- What `matchhere` accepts: a word of the items, at the end of the text if a '$' follows. -/
theorem matchhere_iff (re text : List Byte) :
    matchhere re text ↔
      Begins (language (readItems re).1) (fun after => (readItems re).2 → after = []) text := by
  induction re using readItems.induct generalizing text with
  | case1 => exact iff_of_true rfl (begins_one.mpr nofun)
  | case2 =>
      rw [matchhere, if_pos rfl, readItems, if_pos rfl]
      refine Iff.trans ?_ begins_one.symm
      rw [List.isEmpty_iff]
      exact ⟨fun isEmpty _ => isEmpty, fun atEnd => atEnd rfl⟩
  | case3 c notDollar =>
      rw [matchhere, if_neg notDollar, readItems, if_neg notDollar, matchone_iff,
        begins_language_cons, language_single]
      exact Begins.congr fun after => iff_of_true rfl (begins_one.mpr nofun)
  | case4 c re ih =>
      rw [matchhere, if_pos rfl, readItems, if_pos rfl, matchstar_iff, begins_language_cons]
      exact Begins.congr ih
  | case5 c c' re notStar ih =>
      rw [matchhere, if_neg notStar, readItems, if_neg notStar, matchone_iff, begins_language_cons,
        language_single]
      exact Begins.congr ih

theorem matchLoop_iff (re text : List Byte) :
    matchLoop re text ↔ ∃ before after, text = before ++ after ∧ matchhere re after := by
  induction text with
  | nil =>
      refine ⟨fun found => ⟨[], [], rfl, found⟩, ?_⟩
      rintro ⟨before, after, isText, found⟩
      obtain ⟨-, rfl⟩ := List.nil_eq_append_iff.mp isText
      exact found
  | cons b text ih =>
      rw [matchLoop, Bool.or_eq_true, ih]
      constructor
      · rintro (found | ⟨before, after, rfl, found⟩)
        · exact ⟨[], b :: text, rfl, found⟩
        · exact ⟨b :: before, after, rfl, found⟩
      · rintro ⟨before, after, isText, found⟩
        cases before with
        | nil =>
            cases isText
            exact .inl found
        | cons b' before =>
            cases isText
            exact .inr ⟨before, after, rfl, found⟩

/-- **`match` implements its regular expressions.** It returns 1 exactly if the text has a part in
the language of the items, at its beginning if the pattern has a '^' there, and at its end if the
pattern ends with a '$' that is not followed by a star. -/
theorem matchText_iff (re text : List Byte) :
    matchText re text = true ↔ ∃ before middle after, text = before ++ middle ++ after ∧
      middle ∈ language (Pattern.read re).items ∧
      ((Pattern.read re).anchored = true → before = []) ∧
      ((Pattern.read re).atEnd = true → after = []) := by
  by_cases isAnchored : re.head? = some caret
  · have isPattern : Pattern.read re = ⟨true, (readItems re.tail).1, (readItems re.tail).2⟩ := by
      simp [Pattern.read, isAnchored]
    rw [matchText, if_pos isAnchored, matchhere_iff, isPattern]
    constructor
    · rintro ⟨middle, after, rfl, isWord, atEnd⟩
      exact ⟨[], middle, after, rfl, isWord, fun _ => rfl, atEnd⟩
    · rintro ⟨before, middle, after, rfl, isWord, atBeginning, atEnd⟩
      rw [atBeginning rfl]
      exact ⟨middle, after, rfl, isWord, atEnd⟩
  · have isPattern : Pattern.read re = ⟨false, (readItems re).1, (readItems re).2⟩ := by
      simp [Pattern.read, isAnchored]
    rw [matchText, if_neg isAnchored, matchLoop_iff, isPattern]
    constructor
    · rintro ⟨before, rest, rfl, found⟩
      obtain ⟨middle, after, rfl, isWord, atEnd⟩ := (matchhere_iff re rest).mp found
      exact ⟨before, middle, after, (List.append_assoc ..).symm, isWord, nofun, atEnd⟩
    · rintro ⟨before, middle, after, rfl, isWord, -, atEnd⟩
      refine ⟨before, middle ++ after, List.append_assoc .., ?_⟩
      exact (matchhere_iff re _).mpr ⟨middle, after, rfl, isWord, atEnd⟩

-- A star on '*' itself, and a '$' before a star.
example : matchText [star, star, dollar] [0x61, star] = true := by decide
example : matchText [caret, dollar, star, dollar] [dollar, dollar] = true := by decide

end Xv6.Grep
