import Mathlib

/-!
Contract: runs of a machine given by a step function.

Owns: the states of the runs whose steps are allowed, the rule that an invariant of
every step is an invariant of every run, and the search for a run that shows a
state with a decidable property.

Does not own: what a step does. A step that is not enabled is `none`.
-/

namespace Xv6.Runs

universe u v

variable {S : Type u} {A : Type v}

/-- The states of the runs from `start` that take only allowed steps. -/
inductive Reachable (step : S → A → Option S) (allowed : S → A → Prop) (start : S) : S → Prop where
  | start : Reachable step allowed start start
  | step {s s' : S} {action : A} (reachable : Reachable step allowed start s)
      (isAllowed : allowed s action) (stepped : step s action = some s') :
      Reachable step allowed start s'

variable {step : S → A → Option S} {allowed : S → A → Prop} {start s : S}

/-- What holds at the start and is kept by every allowed step holds in every run. -/
theorem Reachable.invariant {Invariant : S → Prop}
    (reachable : Reachable step allowed start s) (atStart : Invariant start)
    (kept : ∀ s s' action, Invariant s → allowed s action → step s action = some s' →
      Invariant s') : Invariant s := by
  induction reachable with
  | start => exact atStart
  | step _ isAllowed stepped ih =>
      exact kept _ _ _ ih isAllowed stepped

theorem Reachable.prepend {next : S} {action : A} (reachable : Reachable step allowed next s)
    (isAllowed : allowed start action) (stepped : step start action = some next) :
    Reachable step allowed start s := by
  induction reachable with
  | start => exact .step .start isAllowed stepped
  | step _ isAllowed' stepped' ih =>
      exact ih.step isAllowed' stepped'

section Follow

variable [∀ s action, Decidable (allowed s action)]

/-- The steps of a list, in order, as far as they are allowed and enabled. -/
def follow (step : S → A → Option S) (allowed : S → A → Prop)
    [∀ s action, Decidable (allowed s action)] (s : S) : List A → Option S
  | [] => some s
  | action :: actions =>
      if allowed s action then
        match step s action with
        | some next => follow step allowed next actions
        | none => none
      else
        none

theorem Reachable.follow {s' : S} {actions : List A} (reachable : Reachable step allowed start s)
    (followed : follow step allowed s actions = some s') : Reachable step allowed start s' := by
  induction actions generalizing s with
  | nil =>
      cases followed
      exact reachable
  | cons action actions ih =>
      unfold Runs.follow at followed
      split at followed
      · rename_i isAllowed
        split at followed
        · rename_i next stepped
          exact ih (reachable.step isAllowed stepped) followed
        · cases followed
      · cases followed

/-- A state with a decidable property, found by following a list of actions. -/
theorem exists_of_follow (step : S → A → Option S) (allowed : S → A → Prop)
    [∀ s action, Decidable (allowed s action)] (start : S) (actions : List A) (test : S → Prop)
    [DecidablePred test]
    (checked : (Runs.follow step allowed start actions).any (fun s => test s) = true) :
    ∃ s, Reachable step allowed start s ∧ test s := by
  cases followed : Runs.follow step allowed start actions with
  | none =>
      rw [followed] at checked
      cases checked
  | some s =>
      rw [followed] at checked
      exact ⟨s, Reachable.start.follow followed, by simpa using checked⟩

end Follow

end Xv6.Runs
