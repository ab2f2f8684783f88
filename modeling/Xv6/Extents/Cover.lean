import Mathlib

/-!
Contract: lists of extents of an address space, and when two lists tile the same addresses.

Owns: the number of extents of a list that contain an address, the splitting of an extent in two,
and what a tiling of a region without overlaps says about its pieces.

Does not own: what the pieces are for. An extent has `units` of a fixed `width`.
-/

namespace Xv6.Extents

/-- The addresses from `start`, as many units. -/
structure Extent where
  start : Nat
  units : Nat
deriving DecidableEq, Repr

variable {width x : Nat} {e : Extent} {l pieces region : List Extent}

def Extent.finish (width : Nat) (e : Extent) : Nat :=
  e.start + width * e.units

def Extent.Contains (width : Nat) (e : Extent) (x : Nat) : Prop :=
  e.start ≤ x ∧ x < e.finish width

instance (e : Extent) (x : Nat) : Decidable (e.Contains width x) :=
  inferInstanceAs (Decidable (_ ∧ _))

/-- The number of extents of a list with an address. -/
def cover (width : Nat) (l : List Extent) (x : Nat) : Nat :=
  l.countP fun e => decide (e.Contains width x)

def total (l : List Extent) : Nat :=
  (l.map Extent.units).sum

@[simp] theorem cover_cons (e : Extent) (l : List Extent) (x : Nat) :
    cover width (e :: l) x = cover width l x + if e.Contains width x then 1 else 0 := by
  simp only [cover, List.countP_cons, decide_eq_true_eq]

@[simp] theorem cover_nil (x : Nat) : cover width [] x = 0 := rfl

@[simp] theorem total_cons (e : Extent) (l : List Extent) : total (e :: l) = e.units + total l :=
  rfl

/-- The pieces and the region contain each address equally often, and are as large. -/
structure Tiles (width : Nat) (pieces region : List Extent) : Prop where
  cover : ∀ x, cover width pieces x = cover width region x
  total : total pieces = total region

section Rules

variable {pieces pieces' region : List Extent} {a m n : Nat}

theorem Tiles.perm (tiles : Tiles width pieces region) (same : pieces'.Perm pieces) :
    Tiles width pieces' region where
  cover x := (same.countP_eq _).trans (tiles.cover x)
  total := ((same.map Extent.units).sum_nat).trans tiles.total

/-- A new piece that is a new part of the region. -/
theorem Tiles.grow (tiles : Tiles width pieces region) (e : Extent) :
    Tiles width (e :: pieces) (e :: region) where
  cover x := by simp only [cover_cons, tiles.cover x]
  total := by simp only [total_cons, tiles.total]

theorem cover_split (a m n x : Nat) :
    (if (Extent.mk a (m + n)).Contains width x then 1 else 0) =
      (if (Extent.mk a m).Contains width x then 1 else 0) +
        if (Extent.mk (a + width * m) n).Contains width x then 1 else 0 := by
  split_ifs <;> simp only [Extent.Contains, Extent.finish, Nat.mul_add] at * <;> omega

theorem Tiles.join (tiles : Tiles width (⟨a, m⟩ :: ⟨a + width * m, n⟩ :: pieces) region) :
    Tiles width (⟨a, m + n⟩ :: pieces) region where
  cover x := by
    rw [← tiles.cover x]
    simp only [cover_cons, cover_split]
    omega
  total := by
    rw [← tiles.total]
    simp only [total_cons]
    omega

theorem Tiles.split (tiles : Tiles width (⟨a, m + n⟩ :: pieces) region) :
    Tiles width (⟨a, m⟩ :: ⟨a + width * m, n⟩ :: pieces) region where
  cover x := by
    rw [← tiles.cover x]
    simp only [cover_cons, cover_split]
    omega
  total := by
    rw [← tiles.total]
    simp only [total_cons]
    omega

end Rules

/-! ## Extents that do not overlap -/

def Simple (width : Nat) (l : List Extent) : Prop :=
  ∀ x, cover width l x ≤ 1

def Apart (width : Nat) (e f : Extent) : Prop :=
  e.finish width ≤ f.start ∨ f.finish width ≤ e.start

theorem Apart.symm {f : Extent} (apart : Apart width e f) : Apart width f e :=
  Or.symm apart

theorem cover_pos (member : e ∈ l) (contains : e.Contains width x) :
    0 < cover width l x :=
  List.countP_pos_iff.mpr ⟨e, member, decide_eq_true contains⟩

/-- Extents above all of a simple list leave it simple. -/
theorem Simple.cons (simple : Simple width l) (above : ∀ f ∈ l, f.finish width ≤ e.start) :
    Simple width (e :: l) := by
  intro x
  rw [cover_cons]
  split
  · rename_i contains
    have uncovered : cover width l x = 0 := by
      refine List.countP_eq_zero.mpr fun f member contained => ?_
      have inside := of_decide_eq_true contained
      have below := above f member
      unfold Extent.Contains at contains inside
      omega
    omega
  · exact simple x

theorem Simple.pairwise (simple : Simple width l) (wide : 0 < width)
    (nonempty : ∀ e ∈ l, 0 < e.units) : l.Pairwise (Apart width) := by
  induction l with
  | nil => exact .nil
  | cons e l ih =>
      refine List.pairwise_cons.mpr ⟨fun f member => ?_, ih (fun x => ?_)
        fun f member => nonempty f (List.mem_cons_of_mem _ member)⟩
      · by_contra overlap
        -- The larger of the two starts is in both.
        have eLong : 0 < width * e.units := Nat.mul_pos wide (nonempty e List.mem_cons_self)
        have fLong : 0 < width * f.units :=
          Nat.mul_pos wide (nonempty f (List.mem_cons_of_mem _ member))
        unfold Apart Extent.finish at overlap
        have inF : f.Contains width (max e.start f.start) := by
          unfold Extent.Contains Extent.finish
          omega
        have inE : e.Contains width (max e.start f.start) := by
          unfold Extent.Contains Extent.finish
          omega
        have twice := simple (max e.start f.start)
        have once := cover_pos member inF
        rw [cover_cons, if_pos inE] at twice
        omega
      · have all := simple x
        rw [cover_cons] at all
        omega

theorem Tiles.simple (tiles : Tiles width pieces region) (simple : Simple width region) :
    Simple width pieces :=
  fun x => Nat.le_trans (Nat.le_of_eq (tiles.cover x)) (simple x)

theorem Tiles.inside (tiles : Tiles width pieces region) (member : e ∈ pieces)
    (contains : e.Contains width x) :
    ∃ f ∈ region, f.Contains width x := by
  have covered := cover_pos member contains
  rw [tiles.cover x] at covered
  obtain ⟨f, isRegion, contained⟩ := List.countP_pos_iff.mp covered
  exact ⟨f, isRegion, of_decide_eq_true contained⟩

end Xv6.Extents
