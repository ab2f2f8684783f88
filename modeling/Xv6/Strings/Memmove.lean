import Xv6.Format.Codec
import Xv6.Moving.Loops

/-!
Contract: `memmove` of `kernel/string.c` and `memmove` of `user/ulib.c`.

Owns: both functions on a memory of 2^64 bytes, and that both move the range, although they
choose the direction of the copy by different tests.
-/

namespace Xv6.Strings

open Xv6.Format
open Xv6.Moving

abbrev Addr := BitVec 64

abbrev Memory := Moving.Memory 64 Byte

/-- `memmove` of the kernel, with `uint n`. -/
def memmove (m : Memory) (dst src : Addr) (n : BitVec 32) : Memory :=
  if n = 0 then
    m
  else if src < dst ∧ src + n.setWidth 64 > dst then
    copyDown n.toNat m (dst + n.setWidth 64) (src + n.setWidth 64)
  else
    copyUp n.toNat m dst src

/-- `memmove` of the user library, with `int n`. -/
def Ulib.memmove (m : Memory) (dst src : Addr) (n : BitVec 32) : Memory :=
  if src > dst then
    copyUp n.toInt.toNat m dst src
  else
    copyDown n.toInt.toNat m (dst + n.signExtend 64) (src + n.signExtend 64)

variable {m : Memory} {dst src : Addr} {n : BitVec 32}

theorem toNat_add {a : Addr} {i n : Nat} (noWrap : a.toNat + n ≤ 2 ^ 64) (inside : i < n) :
    (a + BitVec.ofNat 64 i).toNat = a.toNat + i := by
  rw [BitVec.toNat_add, BitVec.toNat_ofNat, Nat.mod_eq_of_lt (by omega : i < 2 ^ 64),
    Nat.mod_eq_of_lt (by omega)]

/-- If the destination is not above the source, or above all of it, what is read upwards has
not been written. -/
theorem apart_up {n : Nat} (source : src.toNat + n ≤ 2 ^ 64) (target : dst.toNat + n ≤ 2 ^ 64)
    (order : dst.toNat ≤ src.toNat ∨ src.toNat + n ≤ dst.toNat) (i j : Nat) (before : i < j)
    (inside : j < n) : dst + BitVec.ofNat 64 i ≠ src + BitVec.ofNat 64 j := by
  intro same
  have places := congrArg BitVec.toNat same
  rw [toNat_add target (by omega), toNat_add source inside] at places
  omega

/-- If the source is not above the destination, what is read downwards has not been written. -/
theorem apart_down {n : Nat} (source : src.toNat + n ≤ 2 ^ 64) (target : dst.toNat + n ≤ 2 ^ 64)
    (order : src.toNat ≤ dst.toNat) (i j : Nat) (before : j < i) (inside : i < n) :
    dst + BitVec.ofNat 64 i ≠ src + BitVec.ofNat 64 j := by
  intro same
  have places := congrArg BitVec.toNat same
  rw [toNat_add target inside, toNat_add source (by omega)] at places
  omega

theorem memmove_moved (source : src.toNat + n.toNat ≤ 2 ^ 64)
    (target : dst.toNat + n.toNat ≤ 2 ^ 64) : Moved m (memmove m dst src n) dst src n.toNat := by
  have isOffset : n.setWidth 64 = BitVec.ofNat 64 n.toNat := (BitVec.ofNat_toNat 64 n).symm
  unfold memmove
  split
  · rename_i isZero
    subst isZero
    exact .zero m dst src
  · split
    · rename_i overlap
      rw [isOffset]
      exact copyDown_moved (by omega) (apart_down source target (Nat.le_of_lt overlap.1))
    · rename_i notAbove
      refine copyUp_moved (by omega) (apart_up source target ?_)
      bv_omega

theorem Ulib.memmove_moved (source : src.toNat + n.toInt.toNat ≤ 2 ^ 64)
    (target : dst.toNat + n.toInt.toNat ≤ 2 ^ 64) :
    Moved m (Ulib.memmove m dst src n) dst src n.toInt.toNat := by
  unfold Ulib.memmove
  split
  · rename_i isAbove
    exact copyUp_moved (by omega) (apart_up source target (.inl (Nat.le_of_lt isAbove)))
  · rename_i notAbove
    have order : src.toNat ≤ dst.toNat := Nat.le_of_not_lt notAbove
    cases negative : n.msb with
    | true =>
        have nothing : n.toInt.toNat = 0 :=
          Int.toNat_of_nonpos (Int.le_of_lt (BitVec.toInt_neg_of_msb_true negative))
        rw [nothing]
        exact .zero m dst src
    | false =>
        have isOffset : n.signExtend 64 = BitVec.ofNat 64 n.toInt.toNat := by
          rw [BitVec.signExtend_eq_setWidth_of_msb_false negative, ← BitVec.ofNat_toNat,
            BitVec.toInt_eq_toNat_of_msb negative, Int.toNat_natCast]
        rw [isOffset]
        exact copyDown_moved (by omega) (apart_down source target order)

/-- **Overlapping moves.** Whatever the overlap of two ranges that do not wrap around the address
space, `memmove` of the kernel and `memmove` of the user library leave in the destination what
was in the source, and change no other byte. -/
theorem memmove_moves (m : Memory) (dst src : Addr) :
    (∀ n : BitVec 32, src.toNat + n.toNat ≤ 2 ^ 64 → dst.toNat + n.toNat ≤ 2 ^ 64 →
      (∀ i, i < n.toNat → memmove m dst src n (dst + BitVec.ofNat 64 i) =
        m (src + BitVec.ofNat 64 i)) ∧
      ∀ a, (∀ i, i < n.toNat → a ≠ dst + BitVec.ofNat 64 i) → memmove m dst src n a = m a) ∧
    ∀ n : BitVec 32, src.toNat + n.toInt.toNat ≤ 2 ^ 64 → dst.toNat + n.toInt.toNat ≤ 2 ^ 64 →
      (∀ i, i < n.toInt.toNat → Ulib.memmove m dst src n (dst + BitVec.ofNat 64 i) =
        m (src + BitVec.ofNat 64 i)) ∧
      ∀ a, (∀ i, i < n.toInt.toNat → a ≠ dst + BitVec.ofNat 64 i) →
        Ulib.memmove m dst src n a = m a := by
  refine ⟨fun n source target => ?_, fun n source target => ?_⟩
  · have moved : Moved m (memmove m dst src n) dst src n.toNat := memmove_moved source target
    exact ⟨moved.copied, moved.kept⟩
  · have moved : Moved m (Ulib.memmove m dst src n) dst src n.toInt.toNat :=
      Ulib.memmove_moved source target
    exact ⟨moved.copied, moved.kept⟩

/-- Three bytes move up by one, over two of themselves. -/
theorem memmove_moves_overlap :
    memmove (fun a => a.setWidth 8) 8 7 3 (8 + 2) = 9 ∧
      Ulib.memmove (fun a => a.setWidth 8) 8 7 3 (8 + 2) = 9 :=
  ⟨((memmove_moves (fun a => a.setWidth 8) 8 7).1 3 (by decide) (by decide)).1 2 (by decide),
    ((memmove_moves (fun a => a.setWidth 8) 8 7).2 3 (by decide) (by decide)).1 2 (by decide)⟩

end Xv6.Strings
