import Mathlib

/-!
Contract: what a function that may fail ends with.

Owns: `Ends`, which says of a result that a value satisfies the postcondition and that a
failure excludes a condition on the input, with its rules for sequencing and for a weaker
statement. One proof of it gives both that a value is right and when there is one.
-/

namespace Xv6.Programs

universe u v

variable {ε : Type u} {α β : Type v} {Enough Enough' : Prop} {Post : α → Prop} {Post' : β → Prop}
  {result : Except ε α} {value : β}

/-- A value satisfies `Post`; there is a failure only if `Enough` does not hold. -/
def Ends (Enough : Prop) (Post : α → Prop) : Except ε α → Prop
  | .ok value => Post value
  | .error _ => ¬ Enough

theorem ok_bind (value : α) (next : α → Except ε β) :
    ((.ok value : Except ε α) >>= next) = next value := rfl

theorem exists_of_bind {next : α → Except ε β} (isOk : result.bind next = .ok value) :
    ∃ a, result = .ok a ∧ next a = .ok value := by
  cases result with
  | error e => cases isOk
  | ok a => exact ⟨a, rfl, isOk⟩

theorem exists_of_map {f : α → β} (isOk : result.map f = .ok value) :
    ∃ a, result = .ok a ∧ f a = value := by
  cases result with
  | error e => cases isOk
  | ok a =>
      cases isOk
      exact ⟨a, rfl, rfl⟩

namespace Ends

variable {result first : Except ε α} {value : α} {next : α → Except ε β}

theorem of_ok (ends : Ends Enough Post result) (returned : result = .ok value) :
    Post value := by
  rw [returned] at ends
  exact ends

theorem exists_ok (ends : Ends Enough Post result) (enough : Enough) :
    ∃ value, result = .ok value := by
  cases result with
  | ok value => exact ⟨value, rfl⟩
  | error stop => exact absurd enough ends

theorem step (returned : first = .ok value) (continues : Ends Enough Post' (next value)) :
    Ends Enough Post' (first >>= next) := by
  rw [returned]
  exact continues

/-- Sequencing: a failure of either part excludes the condition. -/
theorem bind (ends : Ends Enough Post first)
    (continues : ∀ value, Post value → Ends Enough Post' (next value)) :
    Ends Enough Post' (first >>= next) := by
  cases first with
  | ok value => exact continues value ends
  | error stop => exact ends

theorem mono {Post' : α → Prop} (ends : Ends Enough Post result) (weaker : Enough' → Enough)
    (stronger : ∀ value, Post value → Post' value) :
    Ends Enough' Post' result := by
  cases result with
  | ok value => exact stronger value ends
  | error stop => exact fun enough => ends (weaker enough)

end Ends

end Xv6.Programs
