import Mathlib

/-!
Contract: `calculateWeight` of `kernel/proc.c`, in the double arithmetic it uses.

Owns: the conversion of a double to `int`, the loop over `denominator`, and the
range of the weights.
-/

namespace Xv6.Cfs

/-- The C conversion from `double` to `int`: truncation towards zero. The values
`calculateWeight` converts are finite and small. -/
def truncateDouble (value : Float) : Int :=
  match value.toModel.unpack with
  | .finite sign mantissa exponent _ =>
      let magnitude : Nat :=
        if 0 ≤ exponent then mantissa * 2 ^ exponent.toNat
        else mantissa / 2 ^ (-exponent).toNat
      match sign with
      | .positive => magnitude
      | .negative => -magnitude
  | _ => 0

/-- The `while` loop: one multiplication for each `iterator < nice`. -/
def scaleDenominator : Nat → Float → Float
  | 0, denominator => denominator
  | iterations + 1, denominator => scaleDenominator iterations (denominator * 1.25)

def calculateWeight (nice : Int) : Int :=
  let denominator : Float := 1.25
  let nice := if nice > 30 then 30 else nice
  -- `iterator < nice && nice > 0` holds for the first `nice` iterations.
  truncateDouble (1024 / scaleDenominator nice.toNat denominator)

private theorem weight_table : ∀ iterations : Fin 31,
    0 < truncateDouble (1024 / scaleDenominator iterations 1.25) ∧
      truncateDouble (1024 / scaleDenominator iterations 1.25) ≤ 819 := by
  decide +kernel

/-- Every weight is positive and at most the weight of nice value 0. -/
theorem calculateWeight_range (nice : Int) :
    0 < calculateWeight nice ∧ calculateWeight nice ≤ 819 := by
  have clamped : (if nice > 30 then 30 else nice).toNat < 31 := by
    split <;> omega
  exact weight_table ⟨_, clamped⟩

example : calculateWeight 0 = 819 ∧ calculateWeight 30 = 1 := by decide +kernel

end Xv6.Cfs
