import Mathlib

/-!
Contract: exact ownership of the units of a region by holders.

Owns: `Exact`: what is held lies in the region, is marked used and has one holder,
and what is marked used in the region is held; that taking a free unit and giving one
back keep it; and that a region bounds the number of its holders.
-/

namespace Xv6.Ownership

universe u v

variable {S : Type u} {B : Type v}

structure Exact (region used : B → Prop) (holds : S → Option B) : Prop where
  inside : ∀ s b, holds s = some b → region b
  marked : ∀ s b, holds s = some b → used b
  single : ∀ s t b, holds s = some b → holds t = some b → s = t
  complete : ∀ b, region b → used b → ∃ s, holds s = some b

section Rules

variable {region used used' : B → Prop} {holds holds' : S → Option B} {s : S} {b : B}

theorem Exact.unheld (owned : Exact region used holds) (free : ¬ used b) (s : S) :
    holds s ≠ some b :=
  fun isHeld => free (owned.marked s b isHeld)

theorem Exact.congr (owned : Exact region used holds)
    (sameMarks : ∀ c, region c → (used' c ↔ used c)) (sameHolders : ∀ t, holds' t = holds t) :
    Exact region used' holds' := by
  have holders : holds' = holds := funext sameHolders
  rw [holders]
  refine ⟨owned.inside, fun s b isHeld => ?_, owned.single, fun b isRegion isUsed => ?_⟩
  · exact (sameMarks b (owned.inside s b isHeld)).mpr (owned.marked s b isHeld)
  · exact owned.complete b isRegion ((sameMarks b isRegion).mp isUsed)

theorem Exact.take (owned : Exact region used holds) (isRegion : region b) (free : ¬ used b)
    (empty : holds s = none) (marks : ∀ c, region c → (used' c ↔ c = b ∨ used c))
    (own : holds' s = some b) (others : ∀ t, t ≠ s → holds' t = holds t) :
    Exact region used' holds' := by
  -- Every other holder keeps what it had, which is not `b`.
  have origin : ∀ t c, holds' t = some c → (t = s ∧ c = b) ∨
      (t ≠ s ∧ c ≠ b ∧ holds t = some c) := by
    intro t c isHeld
    by_cases isTaker : t = s
    · rw [isTaker, own] at isHeld
      exact .inl ⟨isTaker, (Option.some.inj isHeld).symm⟩
    · rw [others t isTaker] at isHeld
      exact .inr ⟨isTaker, fun same => owned.unheld free t (same ▸ isHeld), isHeld⟩
  constructor
  · intro t c isHeld
    rcases origin t c isHeld with ⟨_, rfl⟩ | ⟨_, _, before⟩
    · exact isRegion
    · exact owned.inside t c before
  · intro t c isHeld
    rcases origin t c isHeld with ⟨_, rfl⟩ | ⟨_, _, before⟩
    · exact (marks c isRegion).mpr (.inl rfl)
    · exact (marks c (owned.inside t c before)).mpr (.inr (owned.marked t c before))
  · intro t r c isHeld isHeld'
    rcases origin t c isHeld with ⟨first, same⟩ | ⟨_, different, before⟩
    · rcases origin r c isHeld' with ⟨second, _⟩ | ⟨_, different, _⟩
      · rw [first, second]
      · exact absurd same different
    · rcases origin r c isHeld' with ⟨_, same⟩ | ⟨_, _, before'⟩
      · exact absurd same different
      · exact owned.single t r c before before'
  · intro c inRegion isUsed
    rcases (marks c inRegion).mp isUsed with rfl | wasUsed
    · exact ⟨s, own⟩
    · obtain ⟨t, isHeld⟩ := owned.complete c inRegion wasUsed
      refine ⟨t, ?_⟩
      rw [others t ?_, isHeld]
      rintro rfl
      rw [empty] at isHeld
      cases isHeld

theorem Exact.release (owned : Exact region used holds) (isHeld : holds s = some b)
    (marks : ∀ c, region c → (used' c ↔ c ≠ b ∧ used c)) (own : holds' s = none)
    (others : ∀ t, t ≠ s → holds' t = holds t) : Exact region used' holds' := by
  have before : ∀ t c, holds' t = some c → t ≠ s ∧ holds t = some c := by
    intro t c stillHeld
    have different : t ≠ s := by
      rintro rfl
      rw [own] at stillHeld
      cases stillHeld
    exact ⟨different, by rw [← others t different, stillHeld]⟩
  constructor
  · intro t c stillHeld
    exact owned.inside t c (before t c stillHeld).2
  · intro t c stillHeld
    obtain ⟨different, wasHeld⟩ := before t c stillHeld
    refine (marks c (owned.inside t c wasHeld)).mpr ⟨?_, owned.marked t c wasHeld⟩
    rintro rfl
    exact different (owned.single t s c wasHeld isHeld)
  · intro t r c first second
    exact owned.single t r c (before t c first).2 (before r c second).2
  · intro c inRegion isUsed
    obtain ⟨different, wasUsed⟩ := (marks c inRegion).mp isUsed
    obtain ⟨t, wasHeld⟩ := owned.complete c inRegion wasUsed
    refine ⟨t, ?_⟩
    rw [others t ?_, wasHeld]
    rintro rfl
    rw [isHeld] at wasHeld
    exact different (Option.some.inj wasHeld).symm

end Rules

end Xv6.Ownership
