import Mathlib

/-!
Contract: counting what the stacks of finitely many threads carry.

Owns: `countIn` for one stack, `countAll` for all of them, the equation that
splits off one thread, and that the others' share depends on their counts only. A
client that keeps such a count invariant compares the frames of the one thread
that moved.
-/

namespace Xv6.Threads

universe u v

variable {ι : Type u} {F : Type v} [Fintype ι] [DecidableEq ι]

variable {carries first second other : F → Nat} {stack stack' : ι → List F} {frames : List F}
  {thread : ι} {factor : Nat}

def countIn (carries : F → Nat) (frames : List F) : Nat := (frames.map carries).sum

@[simp] theorem countIn_nil (carries : F → Nat) : countIn carries [] = 0 := rfl

@[simp] theorem countIn_cons (carries : F → Nat) (frame : F) (frames : List F) :
    countIn carries (frame :: frames) = carries frame + countIn carries frames := by
  simp [countIn]

@[simp] theorem countIn_append (carries : F → Nat) (above below : List F) :
    countIn carries (above ++ below) = countIn carries above + countIn carries below := by
  simp [countIn]

theorem countIn_eq_zero
    (nothing : ∀ frame ∈ frames, carries frame = 0) : countIn carries frames = 0 := by
  induction frames with
  | nil => rfl
  | cons frame frames ih =>
      rw [countIn_cons, nothing frame (by simp),
        ih fun other member => nothing other (by simp [member])]

theorem carries_le_countIn (carries : F → Nat) {frame : F} (member : frame ∈ frames) :
    carries frame ≤ countIn carries frames := by
  obtain ⟨above, below, split⟩ := List.append_of_mem member
  rw [split, countIn_append, countIn_cons]
  omega

def countAll (carries : F → Nat) (stack : ι → List F) : Nat :=
  ∑ thread, countIn carries (stack thread)

def countElse (carries : F → Nat) (stack : ι → List F) (thread : ι) : Nat :=
  ∑ other ∈ Finset.univ.erase thread, countIn carries (stack other)

theorem countAll_eq (carries : F → Nat) (stack : ι → List F) (thread : ι) :
    countAll carries stack =
      countIn carries (stack thread) + countElse carries stack thread :=
  (Finset.add_sum_erase _ _ (Finset.mem_univ thread)).symm

theorem countElse_congr (same : ∀ other, other ≠ thread →
      countIn carries (stack' other) = countIn carries (stack other)) :
    countElse carries stack' thread = countElse carries stack thread :=
  Finset.sum_congr rfl fun other member => same other (Finset.ne_of_mem_erase member)

theorem countIn_le_countAll (carries : F → Nat) (stack : ι → List F) (thread : ι) :
    countIn carries (stack thread) ≤ countAll carries stack := by
  rw [countAll_eq carries stack thread]
  exact Nat.le_add_right _ _

omit [DecidableEq ι] in
theorem countAll_eq_zero_iff :
    countAll carries stack = 0 ↔ ∀ thread, ∀ frame ∈ stack thread, carries frame = 0 := by
  constructor
  · intro nothing thread frame member
    have inStack := carries_le_countIn carries member
    have zero := (Finset.sum_eq_zero_iff.mp nothing) thread (Finset.mem_univ thread)
    omega
  · intro nothing
    exact Finset.sum_eq_zero fun thread _ => countIn_eq_zero (nothing thread)

theorem countIn_add (sum : ∀ frame, carries frame = first frame + second frame) (frames : List F) :
    countIn carries frames = countIn first frames + countIn second frames := by
  induction frames with
  | nil => rfl
  | cons frame frames ih =>
      rw [countIn_cons, countIn_cons, countIn_cons, ih, sum frame]
      omega

omit [DecidableEq ι] in
theorem countAll_add
    (sum : ∀ frame, carries frame = first frame + second frame) (stack : ι → List F) :
    countAll carries stack = countAll first stack + countAll second stack := by
  rw [countAll, countAll, countAll, ← Finset.sum_add_distrib]
  exact Finset.sum_congr rfl fun thread _ => countIn_add sum (stack thread)

theorem countIn_le_mul (each : ∀ frame, carries frame ≤ factor * other frame) (frames : List F) :
    countIn carries frames ≤ factor * countIn other frames := by
  induction frames with
  | nil => exact Nat.zero_le _
  | cons frame frames ih =>
      rw [countIn_cons, countIn_cons, Nat.mul_add]
      exact Nat.add_le_add (each frame) ih

omit [DecidableEq ι] in
theorem countAll_le_mul (each : ∀ frame, carries frame ≤ factor * other frame)
    (stack : ι → List F) :
    countAll carries stack ≤ factor * countAll other stack := by
  rw [countAll, countAll, Finset.mul_sum]
  exact Finset.sum_le_sum fun thread _ => countIn_le_mul each (stack thread)

/-- What is carried once is carried by one thread. -/
theorem existsUnique_of_countAll_eq_one (once : countAll carries stack = 1) :
    ∃! thread, ∃ frame ∈ stack thread, 0 < carries frame := by
  have carried : ∃ thread, ∃ frame ∈ stack thread, 0 < carries frame := by
    by_contra absent
    push Not at absent
    have nothing := countAll_eq_zero_iff.mpr fun thread frame member =>
      Nat.le_zero.mp (absent thread frame member)
    omega
  obtain ⟨thread, frame, member, positive⟩ := carried
  refine ⟨thread, ⟨frame, member, positive⟩, ?_⟩
  rintro other ⟨second, secondMember, secondPositive⟩
  by_contra different
  have split := countAll_eq carries stack thread
  have inThread := carries_le_countIn carries member
  have inOther := carries_le_countIn carries secondMember
  have share : countIn carries (stack other) ≤ countElse carries stack thread :=
    Finset.single_le_sum (f := fun t => countIn carries (stack t)) (fun _ _ => Nat.zero_le _)
      (Finset.mem_erase.mpr ⟨different, Finset.mem_univ other⟩)
  omega

end Xv6.Threads
