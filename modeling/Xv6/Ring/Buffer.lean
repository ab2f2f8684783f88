import Mathlib

/-!
Contract: a ring buffer indexed by free-running counters of fixed width.

The counters say how many elements were ever read and written, modulo `2 ^ width`;
an element lies at its number modulo the capacity. The capacity divides `2 ^ width`,
so that the places go on in order when a counter wraps around.

Owns: the buffer, its contents as a list with the oldest element first, `put` and
`drop`, and what they do to the contents.
-/

namespace Xv6.Ring

universe u

structure Buffer (α : Type u) (width capacity : Nat) where
  data : Fin capacity → α
  nread : BitVec width
  nwrite : BitVec width

namespace Buffer

variable {α : Type u} {width capacity : Nat}

/-- The place of the element with this number. -/
def place (capacity : Nat) [NeZero capacity] (number : BitVec width) : Fin capacity :=
  Fin.ofNat capacity number.toNat

/-- How many elements were written and not read, as far as the counters tell. -/
def length (buffer : Buffer α width capacity) : Nat := (buffer.nwrite - buffer.nread).toNat

section Places

variable [NeZero capacity]

def contents (buffer : Buffer α width capacity) : List α :=
  (List.range buffer.length).map fun k =>
    buffer.data (place capacity (buffer.nread + BitVec.ofNat width k))

def put (buffer : Buffer α width capacity) (x : α) : Buffer α width capacity :=
  { buffer with
    data := Function.update buffer.data (place capacity buffer.nwrite) x
    nwrite := buffer.nwrite + 1 }

def front (buffer : Buffer α width capacity) : α := buffer.data (place capacity buffer.nread)

end Places

def drop (buffer : Buffer α width capacity) : Buffer α width capacity :=
  { buffer with nread := buffer.nread + 1 }

variable {buffer : Buffer α width capacity}

/-! ## Lengths -/

theorem nwrite_eq (buffer : Buffer α width capacity) :
    buffer.nwrite = buffer.nread + BitVec.ofNat width buffer.length := by
  unfold length
  rw [BitVec.ofNat_toNat, BitVec.setWidth_eq]
  abel

/-- The counters are equal when nothing is in the buffer. -/
theorem nread_eq_nwrite_iff : buffer.nread = buffer.nwrite ↔ buffer.length = 0 := by
  unfold length
  constructor
  · intro equal
    rw [equal, BitVec.sub_self, BitVec.toNat_zero]
  · intro isZero
    have noDifference : buffer.nwrite - buffer.nread = 0 :=
      BitVec.eq_of_toNat_eq (isZero.trans BitVec.toNat_zero.symm)
    exact (sub_eq_zero.mp noDifference).symm

theorem nwrite_eq_add_iff {k : Nat} (small : k < 2 ^ width) :
    buffer.nwrite = buffer.nread + BitVec.ofNat width k ↔ buffer.length = k := by
  constructor
  · intro equal
    unfold length
    rw [equal, add_sub_cancel_left, BitVec.toNat_ofNat, Nat.mod_eq_of_lt small]
  · intro isLength
    rw [← isLength]
    exact buffer.nwrite_eq

theorem toNat_one (wide : 1 < 2 ^ width) : (1 : BitVec width).toNat = 1 :=
  (BitVec.toNat_ofNat 1 width).trans (Nat.mod_eq_of_lt wide)

theorem length_put [NeZero capacity] (room : buffer.length + 1 < 2 ^ width) (x : α) :
    (buffer.put x).length = buffer.length + 1 := by
  have difference : buffer.nwrite + 1 - buffer.nread = (buffer.nwrite - buffer.nread) + 1 := by
    abel
  have one : (1 : BitVec width).toNat = 1 := toNat_one (by omega)
  unfold length at room ⊢
  dsimp only [put]
  rw [difference, BitVec.toNat_add_of_lt (by rw [one]; exact room), one]

theorem length_drop (nonempty : buffer.nread ≠ buffer.nwrite) :
    buffer.drop.length + 1 = buffer.length := by
  have positive : buffer.length ≠ 0 := fun isZero => nonempty (nread_eq_nwrite_iff.mpr isZero)
  have difference : buffer.nwrite - (buffer.nread + 1) = (buffer.nwrite - buffer.nread) - 1 := by
    abel
  unfold length at positive ⊢
  dsimp only [drop]
  have one : (1 : BitVec width).toNat = 1 := by
    have bound := (buffer.nwrite - buffer.nread).isLt
    exact toNat_one (by omega)
  rw [difference, BitVec.toNat_sub_of_le (by rw [BitVec.le_def, one]; omega), one]
  omega

/-! ## Contents -/

section Contents

variable [NeZero capacity]

theorem place_add (divides : capacity ∣ 2 ^ width) (number : BitVec width) (k : Nat) :
    place capacity (number + BitVec.ofNat width k) = Fin.ofNat capacity (number.toNat + k) := by
  apply Fin.ext
  simp only [place, Fin.val_ofNat, BitVec.toNat_add, BitVec.toNat_ofNat, Nat.add_mod_mod]
  exact Nat.mod_mod_of_dvd _ divides

theorem place_ne (divides : capacity ∣ 2 ^ width) (number : BitVec width) {j k : Nat}
    (before : j < k) (near : k < capacity) :
    place capacity (number + BitVec.ofNat width j) ≠
      place capacity (number + BitVec.ofNat width k) := by
  rw [place_add divides, place_add divides]
  intro same
  have sameRest : number.toNat + j ≡ number.toNat + k [MOD capacity] := congrArg Fin.val same
  have equal := Nat.ModEq.eq_of_lt_of_lt (Nat.ModEq.add_left_cancel' _ sameRest)
    (Nat.lt_trans before near) near
  omega

theorem contents_put (divides : capacity ∣ 2 ^ width) (larger : capacity < 2 ^ width)
    (room : buffer.length < capacity) (x : α) :
    (buffer.put x).contents = buffer.contents ++ [x] := by
  unfold contents
  rw [length_put (by omega), List.range_succ, List.map_append, List.map_singleton]
  congr 1
  · apply List.map_congr_left
    intro k member
    have isOld := List.mem_range.mp member
    apply Function.update_of_ne
    rw [buffer.nwrite_eq]
    exact place_ne divides _ isOld room
  · dsimp only [put]
    rw [← buffer.nwrite_eq, Function.update_self]

theorem length_contents (buffer : Buffer α width capacity) :
    buffer.contents.length = buffer.length := by
  rw [contents, List.length_map, List.length_range]

theorem contents_drop (nonempty : buffer.nread ≠ buffer.nwrite) :
    buffer.contents = buffer.front :: buffer.drop.contents := by
  unfold contents
  rw [← length_drop nonempty, List.range_succ_eq_map, List.map_cons, List.map_map]
  congr 1
  · unfold front
    rw [BitVec.add_zero]
  · apply List.map_congr_left
    intro k _
    have next : buffer.nread + BitVec.ofNat width (k + 1) =
        buffer.nread + 1 + BitVec.ofNat width k := by
      rw [Nat.add_comm k, ← BitVec.ofNat_add_ofNat, add_assoc]
      rfl
    dsimp only [Function.comp_apply, drop]
    rw [next]

theorem contents_eq_nil (isEmpty : buffer.nread = buffer.nwrite) : buffer.contents = [] := by
  rw [contents, nread_eq_nwrite_iff.mp isEmpty]
  rfl

end Contents

end Buffer

end Xv6.Ring
