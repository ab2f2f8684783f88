import Xv6.Family.Tree

/-!
Contract: which processes `kill` affects.

Owns: what `kill` finds in a table, and the results about `kill` in every run.

An unused slot has pid 0, so `kill(0)` finds the first unused slot, marks it as killed and
returns 0. `allocproc` does not clear the mark.
-/

namespace Xv6.Family

open Xv6.Kernel
open Xv6.Runs
open Function

variable {n : Nat} {s s' : State n} {action : Action n}

/-! ## The call by itself -/

/-- `kill` returns 0 for a slot with the pid, and else leaves the table as it is. -/
theorem kill_spec (table : Fin n → Proc n) (pid : Int) :
    ((kill table pid).1 = 0 ∧ ∃ q, (table q).pid = pid) ∨
      (kill table pid = (-1, table) ∧ ∀ q, (table q).pid ≠ pid) := by
  have loop : ∀ slots : List (Fin n), ((killFrom table pid slots).1 = 0 ∧
      ∃ q ∈ slots, (table q).pid = pid) ∨
        (killFrom table pid slots = (-1, table) ∧ ∀ q ∈ slots, (table q).pid ≠ pid) := by
    intro slots
    induction slots with
    | nil => exact .inr ⟨rfl, nofun⟩
    | cons q slots ih =>
        rw [killFrom]
        split
        · rename_i found
          exact .inl ⟨rfl, q, List.mem_cons_self, found⟩
        · rename_i other
          refine ih.imp ?_ ?_
          · exact fun ⟨isZero, r, inSlots, found⟩ =>
              ⟨isZero, r, List.mem_cons_of_mem _ inSlots, found⟩
          · exact fun ⟨unchanged, others⟩ => ⟨unchanged, List.forall_mem_cons.mpr ⟨other, others⟩⟩
  refine (loop (List.finRange n)).imp ?_ ?_
  · exact fun ⟨isZero, q, _, found⟩ => ⟨isZero, q, found⟩
  · exact fun ⟨unchanged, others⟩ => ⟨unchanged, fun q => others q (List.mem_finRange q)⟩

/-! ## Runs -/

/-- No call is a `kill(0)`. -/
def NotKillZero (_ : State n) (action : Action n) : Prop := action.request ≠ .kill 0

/-- What `kill` relies on. -/
structure Clean (s : State n) : Prop where
  unused : ∀ q, (s.proc q).state = .UNUSED → (s.proc q).pid = 0 ∧ (s.proc q).killed = false
  killing : ∀ p pid slot, (s.thread p).point = .kill pid slot → pid ≠ 0

section Steps

variable {s s' : State n} {p : Fin n} {request : Request} {instr : Instr n} {next : Thread n}

theorem threadStep_kill (stepped : threadStep s p request = some (instr, next)) (pid : Int)
    (slot : Nat) (isKill : next.point = .kill pid slot) :
    (∃ slot', (s.thread p).point = .kill pid slot') ∨ request = .kill pid := by
  unfold threadStep at stepped
  dsimp only at stepped
  split at stepped
  case h_4 =>
    split at stepped
    · grind
    · unfold pointStep at stepped
      dsimp only at stepped
      split at stepped
      case h_8 chan slot after _ => cases after <;> grind [After.point]
      all_goals grind
  all_goals grind

theorem step_clean {action : Action n} (clean : Clean s) (tree : Tree s)
    (allowed : NotKillZero s action) (stepped : step s action = some s') : Clean s' := by
  obtain ⟨⟨instr, next⟩, decided, rfl⟩ := Option.map_eq_some_iff.mp stepped
  have follows := (threadStep_spec decided).2
  have kept := threadStep_kill decided
  have unused := clean.unused
  have killing := clean.killing
  have forking := tree.forking
  refine ⟨?_, fun p pid slot isKill => ?_⟩
  · have running := tree.running
    cases instr with
    | skip | acquireWait | returned => exact unused
    | _ =>
        simp only [execute, State.goto, State.setProc, State.record, allocated, freeproc, killProc,
          Instr.Follows] at *
        grind [update_apply, Phase.OnCpu, Point.child]
  · have ofStep : next.point = .kill pid slot → pid ≠ 0 := by
      intro isNext isZero
      rcases kept pid slot isNext with ⟨slot', wasKill⟩ | isRequest
      · exact killing _ pid slot' wasKill isZero
      · rw [isZero] at isRequest
        exact allowed isRequest
    cases instr <;> simp only [execute, State.goto, State.setProc, State.record] at isKill <;>
      grind [update_apply]

end Steps

theorem userinit_clean (initproc : Fin n) : Clean (userinit initproc) := by
  refine ⟨fun q isUnused => ?_, nofun⟩
  simp only [userinit, update_apply] at isUnused ⊢
  split at isUnused
  · cases isUnused
  · rename_i notInit
    rw [if_neg notInit]
    exact ⟨rfl, rfl⟩

structure KillSound (s : State n) : Prop where
  tree : Tree s
  clean : Clean s

/-- A call of `kill` by itself: 0 only for a process that exists, and else no change. -/
def KillsExisting (table : Fin n → Proc n) (pid : Int) : Prop :=
  ((kill table pid).1 = 0 → ∃ q, (table q).state ≠ .UNUSED ∧ (table q).pid = pid) ∧
    ((¬ ∃ q, (table q).state ≠ .UNUSED ∧ (table q).pid = pid) → kill table pid = (-1, table))

/-- A process that `allocproc` returns starts with `killed = 0`. -/
def StartsAlive (s s' : State n) : Prop :=
  ∀ q, (s.proc q).state = .UNUSED → (s'.proc q).state ≠ .UNUSED → (s'.proc q).killed = false

/-- One section of the loop of `kill` changes nothing, or kills a process that exists. -/
def KillStepsExisting (s s' : State n) (action : Action n) : Prop :=
  ∀ pid slot, s.thread action.slot = ⟨.running, .kill pid slot⟩ → action.request ≠ .yield →
    s'.proc = s.proc ∨ ∃ q, (s.proc q).state ≠ .UNUSED ∧ (s.proc q).pid = pid ∧
      s'.proc = update s.proc q (killProc (s.proc q))

theorem kills_existing (clean : Clean s) {pid : Int} (notZero : pid ≠ 0) :
    KillsExisting s.proc pid := by
  have inUse : ∀ q, (s.proc q).pid = pid → (s.proc q).state ≠ .UNUSED := fun q isPid isUnused =>
    notZero (isPid.symm.trans (clean.unused q isUnused).1)
  rcases kill_spec s.proc pid with ⟨isZero, q, isPid⟩ | ⟨unchanged, others⟩
  · exact ⟨fun _ => ⟨q, inUse q isPid, isPid⟩, fun nobody =>
      absurd ⟨q, inUse q isPid, isPid⟩ nobody⟩
  · refine ⟨fun isZero => ?_, fun _ => unchanged⟩
    rw [unchanged] at isZero
    cases isZero

theorem kill_steps_existing (clean : Clean s) (stepped : step s action = some s') :
    KillStepsExisting s s' action := by
  intro pid slot isThread notYield
  obtain ⟨⟨instr, next⟩, decided, rfl⟩ := Option.map_eq_some_iff.mp stepped
  simp only [threadStep, isThread, if_neg notYield, pointStep] at decided
  split at decided
  · rename_i inTable
    split at decided
    · cases decided
    · split at decided
      · rename_i isPid
        cases decided
        refine .inr ⟨⟨slot, inTable⟩, fun isUnused => ?_, isPid, rfl⟩
        have notZero := clean.killing action.slot pid slot (by rw [isThread])
        exact notZero (isPid.symm.trans (clean.unused _ isUnused).1)
      · cases decided
        exact .inl rfl
  · cases decided
    exact .inl rfl

theorem starts_alive (tree : Tree s) (clean : Clean s) (stepped : step s action = some s') :
    StartsAlive s s' := by
  intro q isUnused inUse
  obtain ⟨⟨instr, next⟩, decided, rfl⟩ := Option.map_eq_some_iff.mp stepped
  have follows := (threadStep_spec decided).2
  have notKilled := (clean.unused q isUnused).2
  have running := tree.running
  have forking := tree.forking
  cases instr with
  | skip | acquireWait | returned => exact absurd isUnused inUse
  | _ =>
      simp only [execute, State.goto, State.setProc, State.record, allocated, freeproc, killProc,
        Instr.Follows] at *
      grind [update_apply, Phase.OnCpu, Point.child]

/-- **`kill` affects only processes that exist**, in every run without a `kill(0)`: it returns 0
only for such a process and changes nothing otherwise, by itself and in every interleaving; and
every process starts with `killed = 0`. -/
theorem kill_affects_existing (initproc : Fin n) (s : State n)
    (reachable : Reachable step NotKillZero (userinit initproc) s) :
    (∀ pid, pid ≠ 0 → KillsExisting s.proc pid) ∧
      ∀ action s', step s action = some s' → StartsAlive s s' ∧ KillStepsExisting s s' action := by
  have sound : KillSound s := reachable.invariant ⟨userinit_tree initproc, userinit_clean initproc⟩
    fun _ _ _ sound allowed stepped =>
      ⟨step_tree sound.tree stepped, step_clean sound.clean sound.tree allowed stepped⟩
  exact ⟨fun pid => kills_existing sound.clean, fun action s' stepped =>
    ⟨starts_alive sound.tree sound.clean stepped, kill_steps_existing sound.clean stepped⟩⟩

def killing : List (Action 2) :=
  [.proceed, .proceed, .fork, .proceed, .proceed, .proceed, .proceed, .kill 2, .proceed,
    .proceed].map (Action.mk 0)

theorem kill_affects_existing_child :
    ∃ s : State 2, ((s.proc 1).killed = true ∧ (s.proc 1).pid = 2) ∧ KillsExisting s.proc 3 := by
  obtain ⟨s, reachable, shown⟩ := exists_of_follow step (fun _ action => action.request ≠ .kill 0)
    (userinit 0) killing (fun s => (s.proc 1).killed = true ∧ (s.proc 1).pid = 2)
    (by decide +kernel)
  exact ⟨s, shown, (kill_affects_existing 0 s reachable).1 3 (by decide)⟩

def killingZero : List (Action NPROC) :=
  [.proceed, .proceed, .kill 0, .proceed, .proceed, .fork, .proceed].map (Action.mk 0)

/-- `kill(0)` returns 0 though no process has pid 0, and the child that is forked next starts with
`killed = 1`. -/
theorem kill_zero_marks_unused :
    (∃ s : State NPROC, Reachable step (fun _ _ => True) (userinit 0) s ∧
      (kill s.proc 0).1 = 0 ∧ ∀ q, (s.proc q).state ≠ .UNUSED → (s.proc q).pid ≠ 0) ∧
    ∃ s s' : State NPROC, Reachable step (fun _ _ => True) (userinit 0) s ∧
      step s ⟨0, .proceed⟩ = some s' ∧ (s.proc 1).state = .UNUSED ∧
        (s'.proc 1).state = .USED ∧ (s'.proc 1).killed = true := by
  constructor
  · exact exists_of_follow step (fun _ _ => True) (userinit 0) (killingZero.take 2)
      (fun s => (kill s.proc 0).1 = 0 ∧ ∀ q, (s.proc q).state ≠ .UNUSED → (s.proc q).pid ≠ 0)
      (by decide +kernel)
  · obtain ⟨s, reachable, isUnused, stepped⟩ := exists_of_follow step (fun _ _ => True) (userinit 0)
      killingZero (fun s => (s.proc 1).state = .UNUSED ∧ (step s ⟨0, .proceed⟩).any
        (fun s' => (s'.proc 1).state = .USED ∧ (s'.proc 1).killed = true) = true)
      (by decide +kernel)
    obtain ⟨s', isStep, shown⟩ := (Option.any_eq_true _ _).mp stepped
    exact ⟨s, s', reachable, isStep, isUnused, by simpa using shown⟩

end Xv6.Family
