import Xv6.Format.Codec
import Xv6.Kernel.Param

/-!
Contract: names and paths (`kernel/string.c`, `kernel/fs.c`) and `struct dirent`.

A name is the buffer `char name[DIRSIZ]`. What stands in it after the first NUL is read by
nothing; here it is 0. A path is the string before its NUL.

Owns: `strncmp`, `strncpy`, `namecmp`, `skipelem` with the elements of a path, and the bytes
of a directory entry.
-/

namespace Xv6.Fs

open Xv6.Kernel
open Xv6.Format

/-! ## Strings -/

def strncmp (p q : Bytes) : Nat → Int
  | 0 => 0
  | n + 1 =>
      if p 0 ≠ 0 ∧ p 0 = q 0 then strncmp (fun i => p (i + 1)) (fun i => q (i + 1)) n
      else (p 0).toNat - (q 0).toNat

/-- The bytes before the first NUL, at most `n`. -/
def cstring (p : Bytes) : Nat → List Byte
  | 0 => []
  | n + 1 => if p 0 = 0 then [] else p 0 :: cstring (fun i => p (i + 1)) n

def strncpy (t : Bytes) (n : Nat) : Bytes := fun i => (cstring t n).getD i 0

theorem strncmp_eq_zero_iff (p q : Bytes) (n : Nat) :
    strncmp p q n = 0 ↔ cstring p n = cstring q n := by
  induction n generalizing p q with
  | zero => exact iff_of_true rfl rfl
  | succ n ih =>
      have heads : ((p 0).toNat : Int) - (q 0).toNat = 0 ↔ p 0 = q 0 := by
        rw [← BitVec.toNat_inj]
        omega
      unfold strncmp cstring
      by_cases atEnd : p 0 = 0 <;> by_cases atEnd' : q 0 = 0 <;> by_cases same : p 0 = q 0 <;>
        simp_all

theorem cstring_length_le (p : Bytes) (n : Nat) : (cstring p n).length ≤ n := by
  induction n generalizing p with
  | zero => exact Nat.le_refl 0
  | succ n ih =>
      unfold cstring
      split
      · exact Nat.zero_le _
      · exact Nat.succ_le_succ (ih _)

theorem cstring_strncpy (t : Bytes) (n : Nat) : cstring (strncpy t n) n = cstring t n := by
  induction n generalizing t with
  | zero => rfl
  | succ n ih =>
      by_cases atEnd : t 0 = 0
      · simp [strncpy, cstring, atEnd]
      · have isString : cstring t (n + 1) = t 0 :: cstring (fun i => t (i + 1)) n := if_neg atEnd
        have head : strncpy t (n + 1) 0 = t 0 := by rw [strncpy, isString]; rfl
        have tail : (fun i => strncpy t (n + 1) (i + 1)) = strncpy (fun i => t (i + 1)) n := by
          funext i
          rw [strncpy, isString]
          rfl
        rw [cstring, head, tail, ih, cstring]

/-! ## Names -/

abbrev Name := Bytes

def namecmp (s t : Name) : Int := strncmp s t DIRSIZ

def Name.ofList (bytes : List Byte) : Name := fun i => bytes.getD i 0

def dot : Name := Name.ofList [0x2e]

def dotdot : Name := Name.ofList [0x2e, 0x2e]

theorem namecmp_eq_zero_iff (s t : Name) :
    namecmp s t = 0 ↔ cstring s DIRSIZ = cstring t DIRSIZ :=
  strncmp_eq_zero_iff ..

/-! ## Paths -/

abbrev Path := List Byte

def slash : Byte := 0x2f

/-- `skipelem`: the first element of the path, and the path that follows it. -/
def skipelem (path : Path) : Option (Name × Path) :=
  match path.dropWhile (· = slash) with
  | [] => none
  | path =>
      some (Name.ofList ((path.takeWhile (· ≠ slash)).take DIRSIZ),
        (path.dropWhile (· ≠ slash)).dropWhile (· = slash))

/-- What `skipelem` yields, one element after the other, for at most `n` elements. -/
def skipelems : Nat → Path → List Name
  | 0, _ => []
  | n + 1, path =>
      match skipelem path with
      | none => []
      | some (name, rest) => name :: skipelems n rest

/-- The elements of a path: a path has no more elements than bytes. -/
def elements (path : Path) : List Name := skipelems path.length path

/-! ## Directory entries -/

/-- `struct dirent` -/
structure Dirent where
  inum : BitVec 16
  name : Fin DIRSIZ → Byte

namespace Dirent

def fields : BitVec 16 × (Fin DIRSIZ → Byte) ≃ Dirent where
  toFun fields := ⟨fields.1, fields.2⟩
  invFun de := (de.inum, de.name)
  left_inv _ := rfl
  right_inv _ := rfl

def codec : Codec Dirent := (Codec.word16.product (Codec.byte.array DIRSIZ)).map fields

/-- `sizeof(struct dirent)` -/
example : codec.width = 16 := rfl

def nameBytes (de : Dirent) : Name := fun i =>
  if inName : i < DIRSIZ then de.name ⟨i, inName⟩ else 0

def ofName (name : Name) (inum : Nat) : Dirent where
  inum := BitVec.ofNat 16 inum
  name i := strncpy name DIRSIZ i

def zero : Dirent := ⟨0, fun _ => 0⟩

theorem cstring_ofName (name : Name) (inum : Nat) :
    cstring (ofName name inum).nameBytes DIRSIZ = cstring name DIRSIZ := by
  rw [← cstring_strncpy name DIRSIZ]
  congr 1
  funext i
  unfold nameBytes ofName
  split
  · rfl
  · rename_i outside
    have bound := cstring_length_le name DIRSIZ
    rw [strncpy, List.getD_eq_getElem?_getD, List.getElem?_eq_none (by omega)]
    rfl

end Dirent

end Xv6.Fs
