import Xv6.Family.Machine

/-!
Contract: the process tree.

Owns: what each step of `fork`, `exit`, `wait` and `kill` may rely on and where it leads, the
invariant that every `p->parent` is a live process, and that every step keeps it.

Does not own: who reaps whom, and with which results.
-/

namespace Xv6.Family

open Xv6.Kernel
open Function

variable {n : Nat}

/-! ## What the points say -/

def After.inExit : After → Prop
  | .user => False
  | .reparent .. | .zombie _ => True

def Point.HoldsWait : Point n → Prop
  | .reparent .. | .wakeParent _ | .zombie _ | .scan .. | .sleep _ | .waitDone _ => True
  | .wakeup _ _ after => after.inExit
  | _ => False

def Point.InExit : Point n → Prop
  | .exit _ | .reparent .. | .wakeParent _ | .zombie _ => True
  | .wakeup _ _ after => after.inExit
  | _ => False

def Point.Passed (q : Fin n) : Point n → Prop
  | .reparent _ slot | .wakeup _ _ (.reparent _ slot) => q < slot
  | .wakeParent _ | .wakeup _ _ (.zombie _) | .zombie _ => True
  | _ => False

def Point.child : Point n → Option (Fin n)
  | .forkParent np | .forkRunnable np => some np
  | _ => none

/-- On a CPU, with `RUNNING` in `p->state`. -/
def Phase.OnCpu : Phase → Prop
  | .running | .resumed => True
  | .switching | .ready => False

structure Moves (s : State n) (p : Fin n) (instr : Instr n) (next : Thread n) : Prop where
  onCpu : next.phase.OnCpu → (s.thread p).phase.OnCpu ∨ instr = .run
  holds : next.point.HoldsWait → (s.thread p).point.HoldsWait ∨ instr = .acquireWait
  exits : next.point.InExit → (s.thread p).point.InExit ∨ s.initproc ≠ p
  passed : ∀ q, next.point.Passed q →
    (s.thread p).point.Passed q ∨ (s.proc q).parent ≠ some p ∨ instr = .setInitproc q
  child : ∀ np, next.point.child = some np →
    (s.thread p).point.child = some np ∨ instr = .allocproc np
  parent : ∀ np, next.point = .forkRunnable np →
    (s.thread p).point = .forkRunnable np ∨ instr = .setParent np
  returns : ∀ value, (s.thread p).point = .waitDone value →
    next.point = .waitDone value ∨ instr = .returned value
  leaves : (s.thread p).point.HoldsWait → (s.thread p).point.InExit →
    (next.point.HoldsWait ∧ next.point.InExit) ∨ ∃ status, instr = .zombie status
  /-- Off the CPU a process does not move. -/
  stays : ¬ (s.thread p).phase.OnCpu → next.point = (s.thread p).point

def Instr.Follows (s : State n) (p : Fin n) (next : Thread n) (instr : Instr n) : Prop :=
  let point := (s.thread p).point
  match instr with
  | .skip | .tidyUp => True
  | .acquireWait => s.waitLock = none
  | .allocproc np =>
      (s.thread p).phase = .running ∧ ¬ s.Locked np ∧ (s.proc np).state = .UNUSED ∧
        (∃ slot, point = .allocproc slot) ∧ next.point = .forkParent np
  | .allocprocFails np => ¬ s.Locked np ∧ (s.proc np).state = .UNUSED
  | .setParent np => (s.thread p).phase = .running ∧ s.waitLock = none ∧
      point = .forkParent np ∧ next.point = .forkRunnable np
  | .setInitproc pp => point.HoldsWait ∧ point.InExit ∧ (s.proc pp).parent = some p
  | .setRunnable np => point = .forkRunnable np ∧ next.point = .user
  | .wakeup q => (s.proc q).state = .SLEEPING
  | .kill q => ∃ slot, point = .kill (s.proc q).pid slot
  | .sleep chan =>
      (s.thread p).phase = .running ∧ ¬ next.phase.OnCpu ∧
        (∀ q, chan = .proc q → point.HoldsWait) ∧ ¬ next.point.HoldsWait
  | .yield => (s.thread p).phase = .running ∧ ¬ next.phase.OnCpu
  | .run => (s.proc p).state = .RUNNABLE
  | .zombie _ => (s.thread p).phase = .running ∧ (∀ q, point.Passed q) ∧ point.HoldsWait ∧
      point.InExit ∧ next = ⟨.switching, .dead⟩
  | .reap pp _ => (s.thread p).phase = .running ∧ (s.proc pp).parent = some p ∧
      (s.proc pp).state = .ZOMBIE ∧ (∃ addr slot havekids, point = .scan addr slot havekids) ∧
      next.point = .waitDone (s.proc pp).pid
  | .returned value => point = .waitDone value ∧ next.point = .user

section Steps

variable {s : State n} {p np : Fin n} {request : Request} {instr : Instr n} {next : Thread n}
  {point : Point n} {status : Int}

theorem Point.inExit_of_passed {q : Fin n} (passed : point.Passed q) :
    point.InExit := by
  cases point with
  | wakeup chan slot after => cases after <;> trivial
  | _ => trivial

/-- The process does not come to a point of `exit`, nor to one where it is making a process. -/
theorem Moves.outside (isThread : s.thread p = ⟨.running, point⟩) (notExit : ¬ next.point.InExit)
    (noChild : next.point.child = none)
    (holds : next.point.HoldsWait → point.HoldsWait ∨ instr = .acquireWait := by nofun)
    (returns : ∀ value, point = .waitDone value → instr = .returned value := by nofun)
    (leaves : point.InExit → ∃ status, instr = .zombie status := by nofun) :
    Moves s p instr next := by
  refine ⟨?_, ?_, fun inExit => absurd inExit notExit,
    fun q passed => absurd (Point.inExit_of_passed passed) notExit, fun np isChild => ?_,
    fun np isNext => ?_, ?_, ?_, ?_⟩
  all_goals try rw [isThread]
  · exact fun _ => .inl trivial
  · exact holds
  · rw [noChild] at isChild
    cases isChild
  · rw [isNext] at noChild
    cases noChild
  · exact fun value isDone => .inr (returns value isDone)
  · exact fun _ inExit => .inr (leaves inExit)
  · exact fun offCpu => absurd trivial offCpu

/-- The process stays in `exit` and keeps `wait_lock`. -/
theorem Moves.inExit (isThread : s.thread p = ⟨.running, point⟩)
    (was : point.HoldsWait ∧ point.InExit) (stays : next.point.HoldsWait ∧ next.point.InExit)
    (passed : ∀ q, next.point.Passed q →
      point.Passed q ∨ (s.proc q).parent ≠ some p ∨ instr = .setInitproc q) :
    Moves s p instr next := by
  refine ⟨?_, ?_, ?_, ?_, fun np isChild => ?_, fun np isNext => ?_, ?_, fun _ _ => .inl stays, ?_⟩
  all_goals try rw [isThread]
  · exact fun _ => .inl trivial
  · exact fun _ => .inl was.1
  · exact fun _ => .inl was.2
  · exact passed
  · cases isNext : next.point <;> rw [isNext] at isChild stays <;>
      first | exact stays.2.elim | cases isChild
  · rw [isNext] at stays
    exact stays.2.elim
  · rintro value rfl
    exact was.2.elim
  · exact fun offCpu => absurd trivial offCpu

theorem Moves.exit (isThread : s.thread p = ⟨.running, .user⟩) (notInit : s.initproc ≠ p) :
    Moves s p .skip ⟨.running, .exit status⟩ := by
  constructor <;> simp [isThread, notInit, Phase.OnCpu, Point.HoldsWait, Point.Passed, Point.child]

theorem Moves.reparent (isThread : s.thread p = ⟨.running, .exit status⟩) :
    Moves s p .acquireWait ⟨.running, .reparent status 0⟩ := by
  constructor <;> simp [isThread, Phase.OnCpu, Point.HoldsWait, Point.InExit, Point.Passed,
    Point.child]

theorem Moves.forkParent {slot : Nat} (isThread : s.thread p = ⟨.running, .allocproc slot⟩) :
    Moves s p (.allocproc np) ⟨.running, .forkParent np⟩ := by
  constructor <;> simp [isThread, Phase.OnCpu, Point.HoldsWait, Point.InExit, Point.Passed,
    Point.child]

theorem Moves.forkRunnable (isThread : s.thread p = ⟨.running, .forkParent np⟩) :
    Moves s p (.setParent np) ⟨.running, .forkRunnable np⟩ := by
  constructor <;> simp [isThread, Phase.OnCpu, Point.HoldsWait, Point.InExit, Point.Passed,
    Point.child]

theorem pointStep_spec (isThread : s.thread p = ⟨.running, point⟩)
    (stepped : pointStep s p request point = some (instr, next)) :
    Moves s p instr next ∧ instr.Follows s p next := by
  have isPoint : (s.thread p).point = point := by rw [isThread]
  have isPhase : (s.thread p).phase = .running := by rw [isThread]
  cases point with
  | user =>
      cases request with
      | exit status =>
          simp only [pointStep] at stepped
          split at stepped <;> cases stepped
          rename_i notInit
          exact ⟨.exit isThread notInit, trivial⟩
      | sleep address =>
          cases stepped
          exact ⟨.outside isThread id rfl, isPhase, id, nofun, id⟩
      | fork | wait | kill | wakeup =>
          cases stepped
          exact ⟨.outside isThread id rfl, trivial⟩
      | proceed | fail | yield => cases stepped
  | allocproc slot =>
      simp only [pointStep] at stepped
      split at stepped
      · split at stepped
        · cases stepped
        rename_i free
        split at stepped
        · rename_i isUnused
          split at stepped <;> cases stepped
          · exact ⟨.outside isThread id rfl, free, isUnused⟩
          · exact ⟨.forkParent isThread, isPhase, free, isUnused, ⟨slot, isPoint⟩, rfl⟩
        · cases stepped
          exact ⟨.outside isThread id rfl, trivial⟩
      · cases stepped
        exact ⟨.outside isThread id rfl, trivial⟩
  | forkParent np =>
      simp only [pointStep] at stepped
      split at stepped <;> cases stepped
      exact ⟨.forkRunnable isThread, isPhase, by assumption, isPoint, rfl⟩
  | forkRunnable np =>
      simp only [pointStep] at stepped
      split at stepped <;> cases stepped
      exact ⟨.outside isThread id rfl, isPoint, rfl⟩
  | exit status =>
      simp only [pointStep] at stepped
      split at stepped <;> cases stepped
      exact ⟨.reparent isThread, by assumption⟩
  | reparent status slot =>
      -- The slot that `reparent` passes is not, or no longer, a child.
      have last : ∀ q : Fin n, (q : Nat) < slot + 1 → (q : Nat) < slot ∨ (q : Nat) = slot :=
        fun q => by omega
      simp only [pointStep] at stepped
      split at stepped
      · rename_i inTable
        split at stepped <;> cases stepped
        · rename_i isChild
          refine ⟨.inExit isThread ⟨trivial, trivial⟩ ⟨trivial, trivial⟩ fun q passed =>
            (last q passed).imp_right fun same => .inr ?_, ?_⟩
          · rw [show q = ⟨slot, inTable⟩ from Fin.ext same]
          · exact ⟨isPoint ▸ trivial, isPoint ▸ trivial, isChild⟩
        · rename_i notChild
          refine ⟨.inExit isThread ⟨trivial, trivial⟩ ⟨trivial, trivial⟩ fun q passed =>
            (last q passed).imp_right fun same => .inl ?_, trivial⟩
          rwa [show q = ⟨slot, inTable⟩ from Fin.ext same]
      · rename_i done
        cases stepped
        exact ⟨.inExit isThread ⟨trivial, trivial⟩ ⟨trivial, trivial⟩ fun q _ =>
          .inl (lt_of_lt_of_le q.isLt (Nat.le_of_not_lt done)), trivial⟩
  | wakeParent status =>
      cases stepped
      exact ⟨.inExit isThread ⟨trivial, trivial⟩ ⟨trivial, trivial⟩ fun _ _ =>
        .inl trivial, trivial⟩
  | wakeup chan slot after =>
      -- The loop goes on, in `exit` or not; what is true of the point stays true.
      have goesOn : ∀ instr slot', Moves s p instr ⟨.running, .wakeup chan slot' after⟩ := by
        intro instr slot'
        cases after with
        | user => exact .outside isThread id rfl
        | reparent | zombie =>
            exact .inExit isThread ⟨trivial, trivial⟩ ⟨trivial, trivial⟩ fun _ => .inl
      have ends : Moves s p .skip ⟨.running, after.point⟩ := by
        cases after with
        | user => exact .outside isThread id rfl
        | reparent | zombie =>
            exact .inExit isThread ⟨trivial, trivial⟩ ⟨trivial, trivial⟩ fun _ => .inl
      simp only [pointStep] at stepped
      split at stepped
      · split at stepped
        · cases stepped
          exact ⟨goesOn _ _, trivial⟩
        split at stepped
        · cases stepped
        split at stepped <;> cases stepped
        · rename_i isSleeping
          exact ⟨goesOn _ _, isSleeping.1⟩
        · exact ⟨goesOn _ _, trivial⟩
      · cases stepped
        exact ⟨ends, trivial⟩
  | zombie status =>
      cases stepped
      exact ⟨.outside isThread id rfl nofun nofun fun _ => ⟨status, rfl⟩, isPhase,
        fun _ => isPoint ▸ trivial, isPoint ▸ trivial, isPoint ▸ trivial, rfl⟩
  | dead | slept => cases stepped
  | wait addr =>
      simp only [pointStep] at stepped
      split at stepped <;> cases stepped
      exact ⟨.outside isThread id rfl fun _ => .inr rfl, by assumption⟩
  | scan addr slot havekids =>
      -- `wait_lock` is held up to the return from `wait`.
      have scans : ∀ instr point', ¬ point'.InExit → point'.child = none →
          Moves s p instr ⟨.running, point'⟩ := fun instr point' notExit noChild =>
        .outside isThread notExit noChild fun _ => .inl trivial
      simp only [pointStep] at stepped
      split at stepped
      · split at stepped
        · rename_i isChild
          split at stepped
          · cases stepped
          split at stepped
          · rename_i isZombie
            split at stepped <;> cases stepped
            · exact ⟨scans _ _ id rfl, trivial⟩
            · exact ⟨scans _ _ id rfl, isPhase, isChild, isZombie, ⟨addr, slot, havekids, isPoint⟩,
                rfl⟩
          · cases stepped
            exact ⟨scans _ _ id rfl, trivial⟩
        · cases stepped
          exact ⟨scans _ _ id rfl, trivial⟩
      · split at stepped <;> cases stepped
        · exact ⟨scans _ _ id rfl, trivial⟩
        · exact ⟨scans _ _ id rfl, trivial⟩
  | sleep addr =>
      cases stepped
      exact ⟨.outside isThread id rfl, isPhase, id,
        fun _ _ => isPoint ▸ trivial, id⟩
  | waitDone value =>
      cases stepped
      exact ⟨.outside isThread id rfl nofun fun _ same => by cases same; rfl, isPoint, rfl⟩
  | kill pid slot =>
      simp only [pointStep] at stepped
      split at stepped
      · split at stepped
        · cases stepped
        split at stepped <;> cases stepped
        · rename_i isPid
          exact ⟨.outside isThread id rfl, slot, by rw [isPoint, isPid]⟩
        · exact ⟨.outside isThread id rfl, trivial⟩
      · cases stepped
        exact ⟨.outside isThread id rfl, trivial⟩

theorem threadStep_spec (stepped : threadStep s p request = some (instr, next)) :
    Moves s p instr next ∧ instr.Follows s p next := by
  unfold threadStep at stepped
  dsimp only at stepped
  cases isThread : s.thread p with
  | mk phase point =>
  rw [isThread] at stepped
  cases phase with
  | switching =>
      cases stepped
      exact ⟨by constructor <;> simp_all [Phase.OnCpu], trivial⟩
  | ready =>
      dsimp only at stepped
      split at stepped <;> cases stepped
      exact ⟨by constructor <;> simp_all, by assumption⟩
  | resumed =>
      dsimp only at stepped
      split at stepped <;> cases stepped <;>
        exact ⟨by constructor <;> simp_all [Phase.OnCpu, Point.HoldsWait, Point.InExit,
          Point.Passed, Point.child], trivial⟩
  | running =>
      dsimp only at stepped
      split at stepped
      · split at stepped <;> cases stepped
        exact ⟨by constructor <;> simp_all [Phase.OnCpu],
          by simp [Instr.Follows, isThread, Phase.OnCpu]⟩
      · exact pointStep_spec isThread stepped

end Steps

/-! ## The invariant -/

def Proc.Live (fields : Proc n) : Prop :=
  fields.state = .SLEEPING ∨ fields.state = .RUNNABLE ∨ fields.state = .RUNNING

structure Tree (s : State n) : Prop where
  running : ∀ p, (s.thread p).phase.OnCpu → (s.proc p).state = .RUNNING
  waitLock : ∀ p, (s.thread p).point.HoldsWait → s.waitLock = some p
  exiting : ∀ p, (s.thread p).point.InExit → s.initproc ≠ p
  passed : ∀ p q, (s.thread p).point.Passed q → (s.proc q).parent ≠ some p
  forking : ∀ p np, (s.thread p).point.child = some np → (s.proc np).state = .USED
  parentSet : ∀ p np, (s.thread p).point = .forkRunnable np → (s.proc np).parent = some p
  forker : ∀ p q np, (s.thread p).point.child = some np → (s.thread q).point.child = some np →
    p = q
  alive : ∀ q r, (s.proc q).parent = some r → (s.proc r).Live
  hasParent : ∀ q, q ≠ s.initproc → (s.proc q).state ≠ .UNUSED → (s.proc q).state ≠ .USED →
    (s.proc q).parent ≠ none
  init : (s.proc s.initproc).Live

section Rules

variable {s s' : State n} {p np pp : Fin n} {instr : Instr n} {next : Thread n}

/-- Instructions that make no process, end none and change no parent. -/
def Instr.Plain : Instr n → Prop
  | .allocproc _ | .setParent _ | .setInitproc _ => False
  | _ => True

/-- A live process stays live through a step that changes nothing else in the tree. -/
theorem Tree.plain (tree : Tree s) (moves : Moves s p instr next) (plain : instr.Plain)
    (threads : s'.thread = update s.thread p next) (sameInit : s'.initproc = s.initproc)
    (parents : ∀ q, (s'.proc q).parent = (s.proc q).parent)
    (states : ∀ q, (s'.proc q).state = (s.proc q).state ∨ (s.proc q).Live ∧ (s'.proc q).Live)
    (running : ∀ q, (s'.thread q).phase.OnCpu → (s'.proc q).state = .RUNNING)
    (waitLock : ∀ q, (s'.thread q).point.HoldsWait → s'.waitLock = some q) : Tree s' := by
  obtain ⟨-, -, exits, movesPassed, movesChild, movesParent, -, -, -⟩ := moves
  obtain ⟨-, -, exiting, passed, forking, parentSet, forker, alive, hasParent, init⟩ := tree
  have thread : ∀ q, s'.thread q = if q = p then next else s.thread q := by
    intro q
    rw [threads, update_apply]
  clear threads
  constructor <;> grind [Proc.Live, Instr.Plain]

theorem Tree.allocproc (tree : Tree s) (moves : Moves s p (.allocproc np) next)
    (follows : Instr.Follows s p next (.allocproc np)) :
    Tree ((execute s p (.allocproc np)).goto p next) := by
  cases moves
  cases tree
  simp only [execute, Instr.Follows, State.goto, State.setProc, State.record, allocated] at *
  constructor <;> dsimp only <;> grind [update_apply, Phase.OnCpu, Proc.Live, Point.child,
    Point.Passed, Point.HoldsWait, Point.InExit]

theorem Tree.allocprocFails (tree : Tree s) (moves : Moves s p (.allocprocFails np) next)
    (follows : Instr.Follows s p next (.allocprocFails np)) :
    Tree ((execute s p (.allocprocFails np)).goto p next) := by
  cases moves
  cases tree
  simp only [execute, Instr.Follows, State.goto, State.setProc, freeproc] at *
  constructor <;> dsimp only <;> grind [update_apply, Proc.Live, Point.child]

/-- The forker is running. No process is in `reparent`, as `wait_lock` is free. -/
theorem Tree.setParent (tree : Tree s) (moves : Moves s p (.setParent np) next)
    (follows : Instr.Follows s p next (.setParent np)) :
    Tree ((execute s p (.setParent np)).goto p next) := by
  cases moves
  cases tree
  simp only [execute, Instr.Follows, State.goto, State.setProc] at *
  constructor <;> dsimp only <;> grind [update_apply, Phase.OnCpu, Proc.Live, Point.child,
    Point.Passed, Point.HoldsWait]

/-- A process that exits is not forking, and the first process does not exit. -/
theorem Tree.setInitproc (tree : Tree s) (moves : Moves s p (.setInitproc pp) next)
    (follows : Instr.Follows s p next (.setInitproc pp)) :
    Tree ((execute s p (.setInitproc pp)).goto p next) := by
  cases moves
  cases tree
  simp only [execute, Instr.Follows, State.goto, State.setProc] at *
  constructor <;> dsimp only <;> grind [update_apply, Proc.Live, Point.InExit,
    Point.inExit_of_passed]

theorem Tree.setRunnable (tree : Tree s) (moves : Moves s p (.setRunnable np) next)
    (follows : Instr.Follows s p next (.setRunnable np)) :
    Tree ((execute s p (.setRunnable np)).goto p next) := by
  cases moves
  cases tree
  simp only [execute, Instr.Follows, State.goto, State.setProc] at *
  constructor <;> dsimp only <;> grind [update_apply, Proc.Live, Point.child]

/-- `reparent` has left the process without children. -/
theorem Tree.zombie {status : Int} (tree : Tree s) (moves : Moves s p (.zombie status) next)
    (follows : Instr.Follows s p next (.zombie status)) :
    Tree ((execute s p (.zombie status)).goto p next) := by
  cases moves
  cases tree
  simp only [execute, Instr.Follows, State.goto, State.setProc, State.record] at *
  constructor <;> dsimp only <;> grind [update_apply, Proc.Live, Phase.OnCpu,
    Point.HoldsWait, Point.child, Point.InExit, Point.Passed]

theorem Tree.reap {addr : Nat} (tree : Tree s) (moves : Moves s p (.reap pp addr) next)
    (follows : Instr.Follows s p next (.reap pp addr)) :
    Tree ((execute s p (.reap pp addr)).goto p next) := by
  cases moves
  cases tree
  simp only [execute, Instr.Follows, State.goto, State.setProc, State.record, freeproc] at *
  constructor <;> dsimp only <;> grind [update_apply, Proc.Live, Phase.OnCpu]

theorem step_tree {action : Action n} (tree : Tree s) (stepped : step s action = some s') :
    Tree s' := by
  obtain ⟨⟨instr, next⟩, decided, rfl⟩ := Option.map_eq_some_iff.mp stepped
  obtain ⟨moves, follows⟩ := threadStep_spec decided
  have onCpu := moves.onCpu
  have holds := moves.holds
  have running := tree.running
  have waitLock := tree.waitLock
  cases instr with
  | allocproc np => exact tree.allocproc moves follows
  | allocprocFails np => exact tree.allocprocFails moves follows
  | setParent np => exact tree.setParent moves follows
  | setInitproc pp => exact tree.setInitproc moves follows
  | setRunnable np => exact tree.setRunnable moves follows
  | zombie status => exact tree.zombie moves follows
  | reap pp addr => exact tree.reap moves follows
  | skip | acquireWait | wakeup q | kill q | sleep chan | tidyUp | yield | run | returned value =>
      refine tree.plain moves trivial rfl rfl ?_ ?_ ?_ ?_
      all_goals simp only [execute, State.goto, State.setProc, State.record, killProc, releaseLock,
        Instr.Follows] at *
      all_goals grind [update_apply, Proc.Live, Phase.OnCpu, Point.HoldsWait]

end Rules

theorem userinit_tree (initproc : Fin n) : Tree (userinit initproc) := by
  have noParent : ∀ q, ((userinit initproc).proc q).parent = none := by
    intro q
    simp only [userinit, update_apply]
    split <;> rfl
  constructor
  case alive =>
    intro q r isParent
    rw [noParent] at isParent
    cases isParent
  case hasParent =>
    intro q notInit inUse
    simp only [userinit, update_of_ne (show q ≠ initproc from notInit)] at inUse
    exact absurd rfl inUse
  case init => exact .inr (.inl (by simp [userinit]))
  all_goals simp [userinit, Phase.OnCpu, Point.HoldsWait, Point.InExit, Point.Passed, Point.child]

end Xv6.Family
