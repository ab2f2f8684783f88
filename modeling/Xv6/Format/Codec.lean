import Mathlib

/-!
Contract: records of fixed width in an array of bytes.

Owns: bytes, codecs with their round-trip law, little-endian integers, products and
arrays of codecs, reading and writing a record at an offset with the laws for the
same, another and a disjoint place, and sets of numbers as the bits of an array.
-/

namespace Xv6.Format

universe u v

abbrev Byte := BitVec 8

abbrev Bytes := Nat → Byte

def firstBytes (p : Bytes) (n : Nat) : List Byte := (List.range n).map p

theorem firstBytes_length (p : Bytes) (n : Nat) : (firstBytes p n).length = n := by
  rw [firstBytes, List.length_map, List.length_range]

theorem getElem?_firstBytes (p : Bytes) {n i : Nat} (inRange : i < n) :
    (firstBytes p n)[i]? = some (p i) := by
  rw [firstBytes, List.getElem?_map, List.getElem?_range inRange]
  rfl

theorem firstBytes_congr {p q : Bytes} {n : Nat} (same : ∀ i, i < n → p i = q i) :
    firstBytes p n = firstBytes q n :=
  List.map_congr_left fun i inside => same i (List.mem_range.mp inside)

theorem firstBytes_getD (bytes : List Byte) :
    firstBytes (fun i => bytes.getD i 0) bytes.length = bytes := by
  refine List.ext_getElem? fun i => ?_
  rcases Nat.lt_or_ge i bytes.length with inside | outside
  · rw [getElem?_firstBytes _ inside, List.getD_eq_getElem?_getD, List.getElem?_eq_getElem inside]
    rfl
  · rw [List.getElem?_eq_none (by rw [firstBytes_length]; exact outside),
      List.getElem?_eq_none outside]

theorem firstBytes_add (p : Bytes) (n m : Nat) :
    firstBytes p (n + m) = firstBytes p n ++ firstBytes (fun i => p (n + i)) m := by
  rw [firstBytes, List.range_add, List.map_append, List.map_map]
  rfl

theorem take_firstBytes (p : Bytes) (n m : Nat) :
    (firstBytes p (n + m)).take n = firstBytes p n := by
  rw [firstBytes_add, List.take_left' (firstBytes_length p n)]

/-- Values encoded in the first `width` bytes. -/
structure Codec (α : Type u) where
  width : Nat
  decode : Bytes → α
  encode : α → Bytes
  decode_encode : ∀ value, decode (encode value) = value
  decode_congr : ∀ left right, (∀ i, i < width → left i = right i) → decode left = decode right

namespace Codec

variable {α : Type u} {β : Type v}

/-! ## Codecs -/

def byte : Codec Byte where
  width := 1
  decode bytes := bytes 0
  encode value _ := value
  decode_encode _ := rfl
  decode_congr _ _ agree := agree 0 (by decide)

/-- Two bytes, the least significant first. -/
def word16 : Codec (BitVec 16) where
  width := 2
  decode bytes := bytes 1 ++ bytes 0
  encode value i := value.extractLsb' (8 * i) 8
  decode_encode value := by
    ext i inRange
    simp only [BitVec.getElem_append, BitVec.getElem_extractLsb']
    split_ifs <;> grind
  decode_congr left right agree := by
    rw [agree 0 (by decide), agree 1 (by decide)]

/-- Four bytes, the least significant first. -/
def word32 : Codec (BitVec 32) where
  width := 4
  decode bytes := bytes 3 ++ bytes 2 ++ bytes 1 ++ bytes 0
  encode value i := value.extractLsb' (8 * i) 8
  decode_encode value := by
    ext i inRange
    simp only [BitVec.getElem_append, BitVec.getElem_extractLsb']
    split_ifs <;> grind
  decode_congr left right agree := by
    rw [agree 0 (by decide), agree 1 (by decide), agree 2 (by decide), agree 3 (by decide)]

def product (left : Codec α) (right : Codec β) : Codec (α × β) where
  width := left.width + right.width
  decode bytes := (left.decode bytes, right.decode fun i => bytes (left.width + i))
  encode value i :=
    if i < left.width then left.encode value.1 i else right.encode value.2 (i - left.width)
  decode_encode value := by
    refine Prod.ext ?_ ?_
    · calc left.decode _ = left.decode (left.encode value.1) :=
            left.decode_congr _ _ fun i inLeft => if_pos inLeft
        _ = value.1 := left.decode_encode value.1
    · calc right.decode _ = right.decode (right.encode value.2) :=
            right.decode_congr _ _ fun i _ => by
              dsimp only
              rw [if_neg (by omega), Nat.add_sub_cancel_left]
        _ = value.2 := right.decode_encode value.2
  decode_congr first second agree := by
    refine Prod.ext ?_ ?_
    · exact left.decode_congr _ _ fun i inLeft => agree i (by omega)
    · exact right.decode_congr _ _ fun i inRight => agree (left.width + i) (by omega)

def array (codec : Codec α) (count : Nat) : Codec (Fin count → α) where
  width := count * codec.width
  decode bytes k := codec.decode fun i => bytes (k * codec.width + i)
  encode values i :=
    if inArray : i / codec.width < count then
      codec.encode (values ⟨i / codec.width, inArray⟩) (i % codec.width)
    else
      0
  decode_encode values := by
    funext k
    calc codec.decode _ = codec.decode (codec.encode (values k)) :=
          codec.decode_congr _ _ fun i inRecord => by
            have isRecord : (k * codec.width + i) / codec.width = k := by
              rw [Nat.add_comm, Nat.add_mul_div_right _ _ (Nat.zero_lt_of_lt inRecord),
                Nat.div_eq_of_lt inRecord, Nat.zero_add]
            have isPlace : (k * codec.width + i) % codec.width = i := by
              rw [Nat.add_comm, Nat.add_mul_mod_self_right, Nat.mod_eq_of_lt inRecord]
            simp only [isRecord, isPlace, k.isLt, dite_true]
      _ = values k := codec.decode_encode (values k)
  decode_congr left right agree := by
    funext k
    refine codec.decode_congr _ _ fun i inRecord => agree _ ?_
    calc k * codec.width + i < (k + 1) * codec.width := by rw [Nat.succ_mul]; omega
      _ ≤ count * codec.width := Nat.mul_le_mul_right _ k.isLt

def map (codec : Codec α) (equiv : α ≃ β) : Codec β where
  width := codec.width
  decode bytes := equiv (codec.decode bytes)
  encode value := codec.encode (equiv.symm value)
  decode_encode value := by rw [codec.decode_encode, Equiv.apply_symm_apply]
  decode_congr left right agree := by rw [codec.decode_congr left right agree]

/-! ## Records in an array of bytes -/

def read (codec : Codec α) (bytes : Bytes) (offset : Nat) : α :=
  codec.decode fun i => bytes (offset + i)

def write (codec : Codec α) (bytes : Bytes) (offset : Nat) (value : α) : Bytes :=
  fun i =>
    if offset ≤ i ∧ i < offset + codec.width then codec.encode value (i - offset) else bytes i

@[simp] theorem read_write (codec : Codec α) (bytes : Bytes) (offset : Nat) (value : α) :
    codec.read (codec.write bytes offset value) offset = value := by
  calc codec.read (codec.write bytes offset value) offset
      = codec.decode (codec.encode value) :=
        codec.decode_congr _ _ fun i inRecord => by
          rw [write, if_pos (by omega), Nat.add_sub_cancel_left]
    _ = value := codec.decode_encode value

theorem read_write_of_disjoint (codec : Codec α) (other : Codec β) (bytes : Bytes)
    {offset place : Nat} (value : α)
    (disjoint : place + other.width ≤ offset ∨ offset + codec.width ≤ place) :
    other.read (codec.write bytes offset value) place = other.read bytes place := by
  refine other.decode_congr _ _ fun i inRecord => ?_
  rw [write, if_neg (by omega)]

/-- In an array of records a write changes one of them. -/
theorem read_write_entry (codec : Codec α) (bytes : Bytes) (i j : Nat) (value : α) :
    codec.read (codec.write bytes (i * codec.width) value) (j * codec.width) =
      if j = i then value else codec.read bytes (j * codec.width) := by
  split
  · rename_i same
    rw [same, read_write]
  · rename_i different
    refine codec.read_write_of_disjoint codec bytes value ?_
    rcases Nat.lt_or_gt_of_ne different with before | after
    · left
      rw [← Nat.succ_mul]
      exact Nat.mul_le_mul_right _ before
    · right
      rw [← Nat.succ_mul]
      exact Nat.mul_le_mul_right _ after

end Codec

/-! ## Bits -/

def mask (i : Nat) : Byte := 1#8 <<< (i % 8)

def bitAt (bytes : Bytes) (i : Nat) : Bool := (bytes (i / 8)).getLsbD (i % 8)

def setBit (bytes : Bytes) (i : Nat) : Bytes :=
  Function.update bytes (i / 8) (bytes (i / 8) ||| mask i)

def clearBit (bytes : Bytes) (i : Nat) : Bytes :=
  Function.update bytes (i / 8) (bytes (i / 8) &&& ~~~ mask i)

theorem getLsbD_mask (i k : Nat) (inByte : k < 8) : (mask i).getLsbD k = decide (k = i % 8) := by
  rw [mask, BitVec.getLsbD_shiftLeft, BitVec.getLsbD_one]
  grind

theorem and_mask_eq_zero_iff (bytes : Bytes) (i : Nat) :
    bytes (i / 8) &&& mask i = 0 ↔ bitAt bytes i = false := by
  have inByte : i % 8 < 8 := Nat.mod_lt _ (by decide)
  constructor
  · intro masked
    have same := congrArg (BitVec.getLsbD · (i % 8)) masked
    simpa [getLsbD_mask i _ inByte, bitAt] using same
  · intro clear
    refine BitVec.eq_of_getLsbD_eq fun k inRange => ?_
    rw [BitVec.getLsbD_and, getLsbD_mask i k inRange]
    by_cases same : k = i % 8
    · rw [same]
      simpa [bitAt] using clear
    · simp [same]

theorem bitAt_setBit (bytes : Bytes) (i j : Nat) :
    bitAt (setBit bytes i) j = (decide (j = i) || bitAt bytes j) := by
  have inByte : j % 8 < 8 := Nat.mod_lt _ (by decide)
  unfold bitAt setBit
  by_cases sameByte : j / 8 = i / 8
  · rw [sameByte, Function.update_self, BitVec.getLsbD_or, getLsbD_mask i _ inByte]
    have sameBit : j = i ↔ j % 8 = i % 8 := by omega
    simp [sameBit, Bool.or_comm]
  · have different : j ≠ i := fun same => sameByte (by rw [same])
    simp [Function.update_of_ne sameByte, different]

theorem bitAt_clearBit (bytes : Bytes) (i j : Nat) :
    bitAt (clearBit bytes i) j = (decide (j ≠ i) && bitAt bytes j) := by
  have inByte : j % 8 < 8 := Nat.mod_lt _ (by decide)
  unfold bitAt clearBit
  by_cases sameByte : j / 8 = i / 8
  · rw [sameByte, Function.update_self, BitVec.getLsbD_and, BitVec.getLsbD_not,
      getLsbD_mask i _ inByte]
    have sameBit : j = i ↔ j % 8 = i % 8 := by omega
    simp [sameBit, inByte, Bool.and_comm]
  · have different : j ≠ i := fun same => sameByte (by rw [same])
    simp [Function.update_of_ne sameByte, different]

end Xv6.Format
