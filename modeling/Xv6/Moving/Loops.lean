import Mathlib

/-!
Contract: loops that copy bytes in place, over a memory with addresses of any width.

Owns: the loop that copies upwards, the loop that copies downwards, what it is to move a range,
and the condition on the two ranges under which each loop does so: no byte is overwritten
before it is read.

Does not own: which of the loops a program chooses.
-/

namespace Xv6.Moving

open Function

universe u

variable {w : Nat} {β : Type u}

abbrev Memory (w : Nat) (β : Type u) := BitVec w → β

/-- `while(n-- > 0) *d++ = *s++;` -/
def copyUp : Nat → Memory w β → BitVec w → BitVec w → Memory w β
  | 0, m, _, _ => m
  | n + 1, m, d, s => copyUp n (update m d (m s)) (d + 1) (s + 1)

/-- `while(n-- > 0) *--d = *--s;` -/
def copyDown : Nat → Memory w β → BitVec w → BitVec w → Memory w β
  | 0, m, _, _ => m
  | n + 1, m, d, s => copyDown n (update m (d - 1) (m (s - 1))) (d - 1) (s - 1)

/-- The `n` bytes from `d` on are those that were at `s`, and nothing else has changed. -/
structure Moved (m m' : Memory w β) (d s : BitVec w) (n : Nat) : Prop where
  copied : ∀ i, i < n → m' (d + BitVec.ofNat w i) = m (s + BitVec.ofNat w i)
  kept : ∀ a, (∀ i, i < n → a ≠ d + BitVec.ofNat w i) → m' a = m a

variable {m m' : Memory w β} {d s : BitVec w} {n : Nat}

theorem Moved.zero (m : Memory w β) (d s : BitVec w) : Moved m m d s 0 :=
  ⟨fun _ inside => absurd inside (Nat.not_lt_zero _), fun _ _ => rfl⟩

theorem add_one_add (d : BitVec w) (i : Nat) :
    d + 1 + BitVec.ofNat w i = d + BitVec.ofNat w (i + 1) := by
  rw [BitVec.ofNat_add, BitVec.add_assoc]
  exact congrArg (d + ·) (BitVec.add_comm ..)

theorem add_succ_sub_one (d : BitVec w) (n : Nat) :
    d + BitVec.ofNat w (n + 1) - 1 = d + BitVec.ofNat w n := by
  rw [BitVec.ofNat_add, ← BitVec.add_assoc]
  exact BitVec.add_sub_cancel ..

/-- Different places of a range have different addresses. -/
theorem add_ofNat_ne {i j : Nat} (different : i ≠ j) (inside : i < 2 ^ w) (inside' : j < 2 ^ w) :
    d + BitVec.ofNat w i ≠ d + BitVec.ofNat w j := by
  intro same
  have sameOffset : BitVec.ofNat w i = BitVec.ofNat w j := by simpa using same
  rw [← BitVec.toNat_inj, BitVec.toNat_ofNat, BitVec.toNat_ofNat, Nat.mod_eq_of_lt inside,
    Nat.mod_eq_of_lt inside'] at sameOffset
  exact different sameOffset

/-- Upwards, a byte must be read before its place is written. -/
theorem copyUp_moved (inside : n ≤ 2 ^ w)
    (apart : ∀ i j, i < j → j < n → d + BitVec.ofNat w i ≠ s + BitVec.ofNat w j) :
    Moved m (copyUp n m d s) d s n := by
  induction n generalizing m d s with
  | zero => exact .zero m d s
  | succ n ih =>
      have rest : Moved (update m d (m s)) (copyUp (n + 1) m d s) (d + 1) (s + 1) n := by
        refine ih (by omega) fun i j before inside => ?_
        rw [add_one_add, add_one_add]
        exact apart (i + 1) (j + 1) (by omega) (by omega)
      refine ⟨fun i inRange => ?_, fun a outside => ?_⟩
      · cases i with
        | zero =>
            have untouched : ∀ i, i < n → d ≠ d + 1 + BitVec.ofNat w i := by
              intro i inRange
              rw [add_one_add]
              have different := add_ofNat_ne (d := d) (Nat.zero_ne_add_one i)
                (by omega) (by omega : i + 1 < 2 ^ w)
              rwa [BitVec.add_zero] at different
            rw [BitVec.add_zero, BitVec.add_zero, rest.kept d untouched,
              update_self]
        | succ i =>
            have unread : s + BitVec.ofNat w (i + 1) ≠ d := by
              have different := (apart 0 (i + 1) (by omega) inRange).symm
              rwa [BitVec.add_zero] at different
            have copied := rest.copied i (by omega)
            rwa [add_one_add, add_one_add, update_of_ne unread] at copied
      · have isOther : a ≠ d := by
          have different := outside 0 (by omega)
          rwa [BitVec.add_zero] at different
        rw [rest.kept a fun i inRange => ?_, update_of_ne isOther]
        rw [add_one_add]
        exact outside (i + 1) (by omega)

/-- Downwards, the bytes above are written first. -/
theorem copyDown_moved (inside : n ≤ 2 ^ w)
    (apart : ∀ i j, j < i → i < n → d + BitVec.ofNat w i ≠ s + BitVec.ofNat w j) :
    Moved m (copyDown n m (d + BitVec.ofNat w n) (s + BitVec.ofNat w n)) d s n := by
  induction n generalizing m with
  | zero => exact .zero m d s
  | succ n ih =>
      have rest := ih
        (m := update m (d + BitVec.ofNat w n) (m (s + BitVec.ofNat w n))) (by omega)
        fun i j before inside => apart i j before (by omega)
      rw [copyDown, add_succ_sub_one, add_succ_sub_one]
      refine ⟨fun i inRange => ?_, fun a outside => ?_⟩
      · by_cases isTop : i = n
        · subst isTop
          rw [rest.kept _ fun j below => add_ofNat_ne (by omega) (by omega) (by omega),
            update_self]
        · have unread : s + BitVec.ofNat w i ≠ d + BitVec.ofNat w n :=
            (apart n i (by omega) (by omega)).symm
          rw [rest.copied i (by omega), update_of_ne unread]
      · rw [rest.kept a fun i inRange => outside i (by omega),
          update_of_ne (outside n (by omega))]

end Xv6.Moving
