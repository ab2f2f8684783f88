import Xv6.Family.Tree

/-!
Contract: every process that exits is reaped at most once, by its parent.

Owns: what makes a history of forks, exits and reapings proper, the invariant that ties the
history to the process table, and the result about every run.
-/

namespace Xv6.Family

open Xv6.Kernel
open Xv6.Runs
open Function

variable {n : Nat} {s : State n}

/-! ## Proper histories -/

def initSerial : Nat := 0

/-- The process that an event is about, as the one that acts. -/
def Event.actor : Event → Nat
  | .forked parent _ _ => parent
  | .exited process _ => process
  | .reaped _ parent _ _ _ => parent
  | .returned process _ => process

def latest (process : Nat) (log : List Event) : Option Event :=
  log.find? fun event => event.actor = process

/-- What must have come before an event. A zombie is reaped once, by its forker, or by the first
process once the forker has exited; its exit status is stored where the caller asked for it. -/
def Event.Justified (before : List Event) : Event → Prop
  | .forked _ child _ => ∀ parent pid, .forked parent child pid ∉ before
  | .exited process _ => ∀ status, .exited process status ∉ before
  | .reaped child parent pid addr stored =>
      (∀ parent pid addr stored, .reaped child parent pid addr stored ∉ before) ∧
        (∃ status, .exited child status ∈ before ∧
          stored = if addr = 0 then none else some status) ∧
        ∃ forker, .forked forker child pid ∈ before ∧
          (parent = forker ∨ parent = initSerial ∧ ∃ status, .exited forker status ∈ before)
  | .returned _ _ => True

/-- The first thing that a process does after it has reaped a child is to return its pid. -/
def Event.Answers (before : List Event) (event : Event) : Prop :=
  ∀ child parent pid addr stored,
    latest event.actor before = some (.reaped child parent pid addr stored) →
      event = .returned event.actor pid

/-- A history, newest event first. -/
def Proper : List Event → Prop
  | [] => True
  | event :: before => event.Justified before ∧ event.Answers before ∧ Proper before

/-! ## The invariant -/

def Event.processes : Event → List Nat
  | .forked parent child _ => [parent, child]
  | .exited process _ => [process]
  | .reaped child parent _ _ _ => [child, parent]
  | .returned process _ => [process]

structure History (s : State n) : Prop where
  unused : ∀ q, s.birth q = none ↔ (s.proc q).state = .UNUSED
  distinct : ∀ q r b c, s.birth q = some b → s.birth r = some c → b.serial = c.serial → q = r
  bounded : ∀ q b, s.birth q = some b → b.serial < s.births
  old : ∀ event ∈ s.log, ∀ process ∈ event.processes, process < s.births
  init : s.birth s.initproc = some ⟨initSerial, none⟩
  /-- A slot without a live process has no thread under way. -/
  idle : ∀ p, ¬ (s.proc p).Live → (s.thread p).point = .user ∨ (s.thread p).point = .dead
  forked : ∀ q b f, s.birth q = some b → b.forker = some f →
    .forked f b.serial (s.proc q).pid ∈ s.log
  making : ∀ p np, (s.thread p).point.child = some np →
    ∃ b, s.birth np = some b ∧ b.forker = some (s.serial p)
  /-- The parent is the forker, or the first process if the forker has exited, or is about to. -/
  lineage : ∀ q r, (s.proc q).parent = some r → ∃ b f, s.birth q = some b ∧ b.forker = some f ∧
    (s.serial r = f ∨ r = s.initproc ∧ ((∃ status, .exited f status ∈ s.log) ∨
      ∃ p, s.serial p = f ∧ (s.thread p).point.HoldsWait ∧ (s.thread p).point.InExit))
  zombie : ∀ q, (s.proc q).state = .ZOMBIE → .exited (s.serial q) (s.proc q).xstate ∈ s.log
  notExited : ∀ q b, s.birth q = some b → (s.proc q).state ≠ .ZOMBIE →
    ∀ status, .exited b.serial status ∉ s.log
  notReaped : ∀ q b, s.birth q = some b → ∀ parent pid addr stored,
    .reaped b.serial parent pid addr stored ∉ s.log
  exits : ∀ i status, .exited i status ∈ s.log →
    (∃ parent pid addr stored, .reaped i parent pid addr stored ∈ s.log) ∨
      ∃ q, s.birth q ≠ none ∧ s.serial q = i ∧ (s.proc q).state = .ZOMBIE ∧
        (s.proc q).xstate = status
  answered : ∀ j child parent pid addr stored,
    latest j s.log = some (.reaped child parent pid addr stored) →
      ∃ p, s.birth p ≠ none ∧ s.serial p = j ∧ (s.thread p).point = .waitDone pid
  proper : Proper s.log

section Rules

variable {s s' : State n} {p q r : Fin n} {instr : Instr n} {next : Thread n} {event : Event}
  {addr : Nat}

theorem State.serial_eq {b : Birth} (isBirth : s.birth q = some b) :
    s.serial q = b.serial := by
  rw [State.serial, isBirth]
  rfl

theorem latest_cons (event : Event) (log : List Event) (process : Nat) :
    latest process (event :: log) =
      if event.actor = process then some event else latest process log := by
  rw [latest, List.find?_cons]
  split <;> simp_all [latest]

theorem History.known (history : History s) (inUse : (s.proc q).state ≠ .UNUSED) :
    ∃ b, s.birth q = some b :=
  Option.ne_none_iff_exists'.mp fun isNone => inUse ((history.unused q).mp isNone)

theorem History.same_slot (history : History s) (firstKnown : s.birth q ≠ none)
    (secondKnown : s.birth r ≠ none) (same : s.serial q = s.serial r) : q = r := by
  obtain ⟨b, isFirst⟩ := Option.ne_none_iff_exists'.mp firstKnown
  obtain ⟨c, isSecond⟩ := Option.ne_none_iff_exists'.mp secondKnown
  rw [State.serial_eq isFirst, State.serial_eq isSecond] at same
  exact history.distinct q r b c isFirst isSecond same

/-- A process records nothing between a reaping and its return. -/
theorem History.answers (history : History s) (known : s.birth p ≠ none)
    (isActor : event.actor = s.serial p)
    (returns : ∀ pid, (s.thread p).point = .waitDone pid → event = .returned event.actor pid) :
    event.Answers s.log := by
  intro child parent pid addr stored isLatest
  obtain ⟨q, isKnown, isSerial, isPoint⟩ := history.answered _ _ _ _ _ _ isLatest
  obtain rfl := history.same_slot isKnown known (isSerial.trans isActor)
  exact returns pid isPoint

theorem History.fresh (history : History s) (names : s.births ∈ event.processes) :
    event ∉ s.log :=
  fun isOld => Nat.lt_irrefl _ (history.old event isOld _ names)

theorem History.allocproc {np : Fin n} (history : History s) (tree : Tree s)
    (follows : Instr.Follows s p next (.allocproc np)) :
    History ((execute s p (.allocproc np)).goto p next) := by
  obtain ⟨isRunning, -, isUnused, ⟨slot, isPoint⟩, isNext⟩ := follows
  have isRunning : (s.proc p).state = .RUNNING := tree.running p (by rw [isRunning]; trivial)
  have other : np ≠ p := by
    rintro rfl
    rw [isUnused] at isRunning
    cases isRunning
  obtain ⟨b, isBirth⟩ := history.known (show (s.proc p).state ≠ .UNUSED by rw [isRunning]; simp)
  have notLive : ¬ (s.proc np).Live := by
    rw [Proc.Live, isUnused]
    simp
  have idle := history.idle np notLive
  have noBirth := (history.unused np).mpr isUnused
  have fresh : ∀ event : Event, s.births ∈ event.processes → event ∉ s.log :=
    fun event => history.fresh
  generalize isState : (execute s p (.allocproc np)).goto p next = s'
  have thread : ∀ q, s'.thread q =
      if q = p then next else if q = np then ⟨.ready, .user⟩ else s.thread q := by
    intro q
    rw [← isState]
    exact (update_apply _ _ _ _).trans
      (by split <;> [rfl; exact update_apply _ _ _ _])
  have proc : ∀ q, s'.proc q = if q = np then allocated (s.proc np) s.nextpid else s.proc q := by
    intro q
    rw [← isState]
    exact update_apply _ _ _ _
  have birth : ∀ q, s'.birth q =
      if q = np then some ⟨s.births, some (s.serial p)⟩ else s.birth q := by
    intro q
    rw [← isState]
    exact update_apply _ _ _ _
  have serial : ∀ q, q ≠ np → s'.serial q = s.serial q := by
    intro q notNew
    rw [State.serial, birth, if_neg notNew, State.serial]
  have log : s'.log = .forked (s.serial p) s.births s.nextpid :: s.log := by
    rw [← isState]
    rfl
  have births : s'.births = s.births + 1 := by
    rw [← isState]
    rfl
  have init : s'.initproc = s.initproc := by
    rw [← isState]
    rfl
  clear isState
  constructor
  case unused => grind [history.unused, allocated]
  case distinct =>
    intro q r b c isFirst isSecond same
    rw [birth] at isFirst isSecond
    split at isFirst <;> split at isSecond
    · rename_i isNew isNew'
      exact isNew.trans isNew'.symm
    · cases isFirst
      exact absurd same (history.bounded r c isSecond).ne'
    · cases isSecond
      exact absurd same (history.bounded q b isFirst).ne
    · exact history.distinct q r b c isFirst isSecond same
  case bounded =>
    intro q b isKnown
    rw [births]
    rw [birth] at isKnown
    split at isKnown
    · cases isKnown
      exact Nat.lt_succ_self _
    · exact Nat.lt_succ_of_lt (history.bounded q b isKnown)
  case old =>
    rw [log, births]
    intro event isOld process names
    rcases List.mem_cons.mp isOld with rfl | isOld
    · have bounded := history.bounded p b isBirth
      rw [← State.serial_eq isBirth] at bounded
      rcases List.mem_pair.mp names with rfl | rfl
      · exact Nat.lt_succ_of_lt bounded
      · exact Nat.lt_succ_self _
    · exact Nat.lt_succ_of_lt (history.old event isOld process names)
  case init => grind [history.init]
  case idle => grind [history.idle, Proc.Live, allocated]
  case forked => grind [history.forked, allocated]
  case making => grind [history.making, tree.forking, Point.child]
  case lineage =>
    intro q r isParent
    have notNew : q ≠ np := by
      rintro rfl
      rw [proc, if_pos rfl] at isParent
      obtain ⟨c, f, isBirth, -⟩ := history.lineage q r isParent
      rw [noBirth] at isBirth
      cases isBirth
    rw [proc, if_neg notNew] at isParent
    obtain ⟨c, f, isBirth, isForker, isLine⟩ := history.lineage q r isParent
    have parentOld : r ≠ np := by
      rintro rfl
      exact notLive (tree.alive q r isParent)
    refine ⟨c, f, by rwa [birth, if_neg notNew], isForker, ?_⟩
    rw [serial r parentOld, init, log]
    refine isLine.imp_right (And.imp_right (Or.imp ?_ ?_))
    · rintro ⟨status, exited⟩
      exact ⟨status, List.mem_cons_of_mem _ exited⟩
    · rintro ⟨p', isSerial, holds, inExit⟩
      have notNew' : p' ≠ np := by
        rintro rfl
        rcases idle with isUser | isDead
        · rw [isUser] at holds
          exact holds
        · rw [isDead] at holds
          exact holds
      have notForker : p' ≠ p := by
        rintro rfl
        rw [isPoint] at holds
        exact holds
      refine ⟨p', by rwa [serial p' notNew'], ?_⟩
      rw [thread, if_neg notForker, if_neg notNew']
      exact ⟨holds, inExit⟩
  case zombie => grind [history.zombie, allocated]
  case notExited => grind [history.notExited, Event.processes]
  case notReaped => grind [history.notReaped, Event.processes]
  case exits => grind [history.exits]
  case answered => grind [history.answered, latest_cons, Event.actor]
  case proper =>
    rw [log]
    refine ⟨fun parent pid => fresh _ (by simp [Event.processes]),
      history.answers (by rw [isBirth]; simp) rfl fun pid isDone => ?_, history.proper⟩
    rw [isPoint] at isDone
    cases isDone

theorem History.zombie_step {status : Int} (history : History s) (tree : Tree s)
    (follows : Instr.Follows s p next (.zombie status)) :
    History ((execute s p (.zombie status)).goto p next) := by
  obtain ⟨isRunning, -, holdsWait, exiting, rfl⟩ := follows
  have isRunning : (s.proc p).state = .RUNNING := tree.running p (by rw [isRunning]; trivial)
  obtain ⟨b, isBirth⟩ := history.known (show (s.proc p).state ≠ .UNUSED by rw [isRunning]; simp)
  have isSerial := State.serial_eq isBirth
  have others : ∀ q, s.birth q ≠ none → s.serial q = s.serial p → q = p := fun q isKnown =>
    history.same_slot isKnown (by rw [isBirth]; simp)
  have notDone : ∀ pid, (s.thread p).point ≠ .waitDone pid := by
    intro pid isDone
    rw [isDone] at exiting
    exact exiting
  generalize isState : (execute s p (.zombie status)).goto p ⟨.switching, .dead⟩ = s'
  have thread : ∀ q, s'.thread q = if q = p then ⟨.switching, .dead⟩ else s.thread q := by
    intro q
    rw [← isState]
    exact update_apply _ _ _ _
  have proc : ∀ q, s'.proc q =
      if q = p then { s.proc p with xstate := status, state := .ZOMBIE } else s.proc q := by
    intro q
    rw [← isState]
    exact update_apply _ _ _ _
  have birth : s'.birth = s.birth := by
    rw [← isState]
    rfl
  have serial : ∀ q, s'.serial q = s.serial q := by
    intro q
    rw [State.serial, birth, State.serial]
  have log : s'.log = .exited (s.serial p) status :: s.log := by
    rw [← isState]
    rfl
  have births : s'.births = s.births := by
    rw [← isState]
    rfl
  have init : s'.initproc = s.initproc := by
    rw [← isState]
    rfl
  clear isState
  constructor
  case unused =>
    intro q
    rw [birth, history.unused q, proc q]
    split
    · rename_i isStep
      rw [isStep, isRunning]
      exact iff_of_false (by simp) (by simp)
    · rfl
  case distinct =>
    rw [birth]
    exact history.distinct
  case bounded =>
    rw [birth, births]
    exact history.bounded
  case old =>
    rw [log, births]
    intro event isOld process names
    rcases List.mem_cons.mp isOld with rfl | isOld
    · rw [List.mem_singleton.mp names, isSerial]
      exact history.bounded p b isBirth
    · exact history.old event isOld process names
  case init =>
    rw [birth, init]
    exact history.init
  case idle => grind [history.idle, Proc.Live]
  case forked => grind [history.forked]
  case making => grind [history.making, Point.child]
  case lineage =>
    intro q r isParent
    have wasParent : (s.proc q).parent = some r := by grind
    obtain ⟨c, f, isKnown, isForker, isLine⟩ := history.lineage q r wasParent
    refine ⟨c, f, by rwa [birth], isForker, ?_⟩
    rw [serial, init, log]
    refine isLine.imp_right (And.imp_right fun gone => .inl ?_)
    rcases gone with ⟨status', exited⟩ | ⟨p', isSerial', holds, -⟩
    · exact ⟨status', List.mem_cons_of_mem _ exited⟩
    · -- Only one process holds `wait_lock`.
      have same := (tree.waitLock p' holds).symm.trans (tree.waitLock p holdsWait)
      obtain rfl := Option.some_inj.mp same
      exact ⟨status, by rw [isSerial']; exact List.mem_cons_self⟩
  case zombie => grind [history.zombie]
  case notExited =>
    intro q c isKnown notZombie status' exited
    rw [birth] at isKnown
    rw [log] at exited
    have notExiting : q ≠ p := by grind
    rcases List.mem_cons.mp exited with isNew | exited
    · refine notExiting (others q (by rw [isKnown]; simp) ?_)
      rw [State.serial_eq isKnown]
      exact (Event.exited.inj isNew).1
    · rw [proc, if_neg notExiting] at notZombie
      exact history.notExited q c isKnown notZombie status' exited
  case notReaped =>
    intro q c isKnown parent pid addr stored reaped
    rw [birth] at isKnown
    rw [log, List.mem_cons] at reaped
    exact history.notReaped q c isKnown _ _ _ _ (reaped.resolve_left (by simp))
  case exits => grind [history.exits]
  case answered => grind [history.answered, latest_cons, Event.actor]
  case proper =>
    rw [log]
    refine ⟨fun status => ?_, history.answers (by rw [isBirth]; simp) rfl
      fun pid isDone => absurd isDone (notDone pid), history.proper⟩
    rw [isSerial]
    exact history.notExited p b isBirth (by rw [isRunning]; simp) status

theorem History.reap {pp : Fin n} (history : History s) (tree : Tree s)
    (follows : Instr.Follows s p next (.reap pp addr)) :
    History ((execute s p (.reap pp addr)).goto p next) := by
  obtain ⟨isRunning, isParent, isZombie, ⟨addr', slot, havekids, isPoint⟩, isNext⟩ := follows
  have isRunning : (s.proc p).state = .RUNNING := tree.running p (by rw [isRunning]; trivial)
  obtain ⟨b, isBirth⟩ := history.known (show (s.proc p).state ≠ .UNUSED by rw [isRunning]; simp)
  obtain ⟨c, isChild⟩ := history.known (show (s.proc pp).state ≠ .UNUSED by rw [isZombie]; simp)
  have isSerial := State.serial_eq isBirth
  have childSerial := State.serial_eq isChild
  have notLive : ¬ (s.proc pp).Live := by
    rw [Proc.Live, isZombie]
    simp
  have idle := history.idle pp notLive
  have other : p ≠ pp := by
    rintro rfl
    rw [isZombie] at isRunning
    cases isRunning
  have notDone : ∀ pid, (s.thread p).point ≠ .waitDone pid := by
    rw [isPoint]
    simp
  -- The caller holds `wait_lock`, so no process is in the middle of `exit`.
  have noExit : ∀ p', (s.thread p').point.HoldsWait → ¬ (s.thread p').point.InExit := by
    intro p' holds inExit
    have holdsWait : (s.thread p).point.HoldsWait := by
      rw [isPoint]
      trivial
    have same := (tree.waitLock p' holds).symm.trans (tree.waitLock p holdsWait)
    obtain rfl := Option.some_inj.mp same
    rw [isPoint] at inExit
    exact inExit
  generalize isStored : (if addr = 0 then none else some (s.proc pp).xstate) = stored
  generalize isState : (execute s p (.reap pp addr)).goto p next = s'
  have thread : ∀ q, s'.thread q = if q = p then next else s.thread q := by
    intro q
    rw [← isState]
    exact update_apply _ _ _ _
  have proc : ∀ q, s'.proc q = if q = pp then freeproc (s.proc pp) else s.proc q := by
    intro q
    rw [← isState]
    exact update_apply _ _ _ _
  have birth : ∀ q, s'.birth q = if q = pp then none else s.birth q := by
    intro q
    rw [← isState]
    exact update_apply _ _ _ _
  have serial : ∀ q, q ≠ pp → s'.serial q = s.serial q := by
    intro q notReaped
    rw [State.serial, birth, if_neg notReaped, State.serial]
  have log : s'.log = .reaped (s.serial pp) (s.serial p) (s.proc pp).pid addr stored :: s.log := by
    rw [← isState, ← isStored]
    rfl
  have births : s'.births = s.births := by
    rw [← isState]
    rfl
  have init : s'.initproc = s.initproc := by
    rw [← isState]
    rfl
  have wasBirth : ∀ q d, s'.birth q = some d → q ≠ pp ∧ s.birth q = some d := by
    intro q d isKnown
    rw [birth] at isKnown
    split at isKnown
    · cases isKnown
    · exact ⟨by assumption, isKnown⟩
  clear isState
  constructor
  case unused => grind [history.unused, freeproc]
  case distinct =>
    intro q r d e isFirst isSecond same
    exact history.distinct q r d e (wasBirth q d isFirst).2 (wasBirth r e isSecond).2 same
  case bounded =>
    intro q d isKnown
    rw [births]
    exact history.bounded q d (wasBirth q d isKnown).2
  case old =>
    rw [log, births]
    intro event isOld process names
    rcases List.mem_cons.mp isOld with rfl | isOld
    · rcases List.mem_pair.mp names with rfl | rfl
      · rw [childSerial]
        exact history.bounded pp c isChild
      · rw [isSerial]
        exact history.bounded p b isBirth
    · exact history.old event isOld process names
  case init => grind [history.init, tree.init]
  case idle => grind [history.idle, Proc.Live, freeproc]
  case forked => grind [history.forked]
  case making => grind [history.making, tree.forking, Point.child]
  case lineage =>
    intro q r stillParent
    have notReaped : q ≠ pp := by grind [freeproc]
    rw [proc, if_neg notReaped] at stillParent
    obtain ⟨d, f, isKnown, isForker, isLine⟩ := history.lineage q r stillParent
    have parentLive : r ≠ pp := by
      rintro rfl
      exact notLive (tree.alive q r stillParent)
    refine ⟨d, f, by rwa [birth, if_neg notReaped], isForker, ?_⟩
    rw [serial r parentLive, init, log]
    refine isLine.imp_right (And.imp_right fun gone => .inl ?_)
    rcases gone with ⟨status, exited⟩ | ⟨p', -, holds, inExit⟩
    · exact ⟨status, List.mem_cons_of_mem _ exited⟩
    · exact absurd inExit (noExit p' holds)
  case zombie => grind [history.zombie, freeproc]
  case notExited => grind [history.notExited]
  case notReaped =>
    intro q d isKnown parent pid addr' stored' reaped
    obtain ⟨notReaped, isKnown⟩ := wasBirth q d isKnown
    rw [log] at reaped
    rcases List.mem_cons.mp reaped with isNew | reaped
    · refine notReaped (history.distinct q pp d c isKnown isChild ?_)
      rw [← childSerial]
      exact (Event.reaped.inj isNew).1
    · exact history.notReaped q d isKnown _ _ _ _ reaped
  case exits => grind [history.exits]
  case answered => grind [history.answered, latest_cons, Event.actor]
  case proper =>
    rw [log]
    refine ⟨⟨?_, ⟨_, history.zombie pp isZombie, isStored.symm⟩, ?_⟩,
      history.answers (by rw [isBirth]; simp) rfl fun pid isDone => absurd isDone (notDone pid),
      history.proper⟩
    · rw [childSerial]
      exact history.notReaped pp c isChild
    · obtain ⟨d, f, isKnown, isForker, isLine⟩ := history.lineage pp p isParent
      refine ⟨f, ?_, ?_⟩
      · rw [State.serial_eq isKnown]
        exact history.forked pp d f isKnown isForker
      · refine isLine.imp_right (And.imp (fun isInit => ?_) fun gone => ?_)
        · rw [isInit, State.serial_eq history.init]
        · rcases gone with exited | ⟨p', -, holds, inExit⟩
          · exact exited
          · exact absurd inExit (noExit p' holds)

/-- A step that makes no process and ends none, and records nothing but what `wait` returns. -/
theorem History.plain (history : History s) (tree : Tree s) (moves : Moves s p instr next)
    (notAllocproc : ∀ np, instr ≠ .allocproc np) (leaves : ∀ status, instr ≠ .zombie status)
    (thread : ∀ q, s'.thread q = if q = p then next else s.thread q)
    (sameInit : s'.initproc = s.initproc) (sameBirth : s'.birth = s.birth)
    (sameBirths : s'.births = s.births)
    (pids : ∀ q, (s.proc q).state ≠ .UNUSED → (s'.proc q).pid = (s.proc q).pid)
    (xstates : ∀ q, (s.proc q).state ≠ .UNUSED → (s'.proc q).xstate = (s.proc q).xstate)
    (states : ∀ q, (s'.proc q).state = (s.proc q).state ∨ (s'.proc q).Live ∧
      (s.proc q).state ≠ .UNUSED ∧ (s.proc q).state ≠ .ZOMBIE)
    (lineage : ∀ q r, (s'.proc q).parent = some r → (s.proc q).parent = some r ∨
      ∃ b f, s.birth q = some b ∧ b.forker = some f ∧ (s.serial r = f ∨ r = s.initproc ∧
        ∃ p, s.serial p = f ∧ (s.thread p).point.HoldsWait ∧ (s.thread p).point.InExit))
    (events : ∀ event, (∀ process value, event ≠ .returned process value) →
      (event ∈ s'.log ↔ event ∈ s.log))
    (old : ∀ event ∈ s'.log, ∀ process ∈ event.processes, process < s.births)
    (answered : ∀ j child parent pid addr stored,
      latest j s'.log = some (.reaped child parent pid addr stored) →
        ∃ q, s.birth q ≠ none ∧ s.serial q = j ∧ (s'.thread q).point = .waitDone pid)
    (proper : Proper s'.log) : History s' := by
  have serial : ∀ q, s'.serial q = s.serial q := fun q => by
    rw [State.serial, State.serial, sameBirth]
  have unusedIff : ∀ q, (s'.proc q).state = .UNUSED ↔ (s.proc q).state = .UNUSED := by
    intro q
    grind [states q, Proc.Live]
  have zombieIff : ∀ q, (s'.proc q).state = .ZOMBIE ↔ (s.proc q).state = .ZOMBIE := by
    intro q
    grind [states q, Proc.Live]
  have known : ∀ q b, s.birth q = some b → (s.proc q).state ≠ .UNUSED := by
    intro q b isBirth isUnused
    rw [(history.unused q).mpr isUnused] at isBirth
    cases isBirth
  have exitedIff : ∀ i status, .exited i status ∈ s'.log ↔ .exited i status ∈ s.log :=
    fun _ _ => events _ (by simp)
  have reapedIff : ∀ i parent pid addr stored, .reaped i parent pid addr stored ∈ s'.log ↔
      .reaped i parent pid addr stored ∈ s.log := fun _ _ _ _ _ => events _ (by simp)
  -- A process that is on its way out of `exit` stays there.
  have leaving : ∀ q, (s.thread q).point.HoldsWait → (s.thread q).point.InExit →
      (s'.thread q).point.HoldsWait ∧ (s'.thread q).point.InExit := by
    intro q holds inExit
    rw [thread q]
    split
    · rename_i isStep
      subst isStep
      rcases moves.leaves holds inExit with stays | ⟨status, isZombie⟩
      · exact stays
      · exact absurd isZombie (leaves status)
    · exact ⟨holds, inExit⟩
  constructor
  case unused =>
    intro q
    rw [sameBirth, unusedIff q]
    exact history.unused q
  case distinct =>
    rw [sameBirth]
    exact history.distinct
  case bounded =>
    rw [sameBirth, sameBirths]
    exact history.bounded
  case old =>
    rw [sameBirths]
    exact old
  case init =>
    rw [sameBirth, sameInit]
    exact history.init
  case idle =>
    intro q notLive
    have wasNotLive : ¬ (s.proc q).Live := by grind [states q, Proc.Live]
    rw [thread q]
    split
    · rename_i isStep
      subst isStep
      have offCpu : ¬ (s.thread q).phase.OnCpu := fun onCpu =>
        wasNotLive (.inr (.inr (tree.running q onCpu)))
      rw [moves.stays offCpu]
      exact history.idle q wasNotLive
    · exact history.idle q wasNotLive
  case forked =>
    intro q b f isBirth isForker
    rw [sameBirth] at isBirth
    rw [events _ (fun _ _ => Event.noConfusion), pids q (known q b isBirth)]
    exact history.forked q b f isBirth isForker
  case making =>
    intro q np isChild
    rw [sameBirth, serial]
    refine history.making q np ?_
    rw [thread q] at isChild
    split at isChild
    · rename_i isStep
      subst isStep
      exact (moves.child np isChild).resolve_right (notAllocproc np)
    · exact isChild
  case lineage =>
    intro q r isParent
    rw [sameBirth, sameInit]
    simp only [serial]
    rcases lineage q r isParent with wasParent | ⟨b, f, isBirth, isForker, isLine⟩
    · obtain ⟨b, f, isBirth, isForker, isLine⟩ := history.lineage q r wasParent
      refine ⟨b, f, isBirth, isForker, isLine.imp_right (And.imp_right (Or.imp ?_ ?_))⟩
      · rintro ⟨status, exited⟩
        exact ⟨status, (exitedIff f status).mpr exited⟩
      · rintro ⟨p', isSerial, holds, inExit⟩
        exact ⟨p', isSerial, leaving p' holds inExit⟩
    · refine ⟨b, f, isBirth, isForker, isLine.imp_right ?_⟩
      rintro ⟨isInit, p', isSerial, holds, inExit⟩
      exact ⟨isInit, .inr ⟨p', isSerial, leaving p' holds inExit⟩⟩
  case zombie =>
    intro q isZombie
    have wasZombie := (zombieIff q).mp isZombie
    rw [serial, exitedIff, xstates q (by rw [wasZombie]; simp)]
    exact history.zombie q wasZombie
  case notExited =>
    intro q b isBirth notZombie status
    rw [sameBirth] at isBirth
    rw [exitedIff]
    exact history.notExited q b isBirth (mt (zombieIff q).mpr notZombie) status
  case notReaped =>
    intro q b isBirth parent pid addr stored
    rw [sameBirth] at isBirth
    rw [reapedIff]
    exact history.notReaped q b isBirth parent pid addr stored
  case exits =>
    intro i status exited
    refine (history.exits i status ((exitedIff i status).mp exited)).imp ?_ ?_
    · rintro ⟨parent, pid, addr, stored, reaped⟩
      exact ⟨parent, pid, addr, stored, (reapedIff ..).mpr reaped⟩
    · rintro ⟨q, isBirth, isSerial, wasZombie, isStatus⟩
      refine ⟨q, by rwa [sameBirth], by rwa [serial], (zombieIff q).mpr wasZombie, ?_⟩
      rw [xstates q (by rw [wasZombie]; simp)]
      exact isStatus
  case answered =>
    rw [sameBirth]
    simp only [serial]
    exact answered
  case proper => exact proper

theorem History.returned {value : Int} (history : History s) (tree : Tree s)
    (moves : Moves s p (.returned value) next)
    (follows : Instr.Follows s p next (.returned value)) :
    History ((execute s p (.returned value)).goto p next) := by
  obtain ⟨isPoint, isNext⟩ := follows
  have isLive : (s.proc p).Live := by
    by_contra notLive
    rcases history.idle p notLive with isUser | isDead
    · rw [isUser] at isPoint
      cases isPoint
    · rw [isDead] at isPoint
      cases isPoint
  obtain ⟨b, isBirth⟩ := history.known (show (s.proc p).state ≠ .UNUSED by grind [Proc.Live])
  refine history.plain tree moves (by simp) (by simp) (fun _ => update_apply _ _ _ _) rfl rfl rfl
    (fun _ _ => rfl) (fun _ _ => rfl) (fun _ => .inl rfl) (fun _ _ => .inl) ?_ ?_ ?_ ?_
  · intro event notReturned
    exact List.mem_cons.trans (or_iff_right (notReturned _ _))
  · intro event isOld process names
    rcases List.mem_cons.mp isOld with rfl | isOld
    · rw [List.mem_singleton.mp names, State.serial_eq isBirth]
      exact history.bounded p b isBirth
    · exact history.old event isOld process names
  · have thread : ∀ q, ((execute s p (.returned value)).goto p next).thread q =
        if q = p then next else s.thread q := fun _ => update_apply _ _ _ _
    have log : ((execute s p (.returned value)).goto p next).log =
        .returned (s.serial p) value :: s.log := rfl
    grind [history.answered, latest_cons, Event.actor]
  · refine ⟨trivial, history.answers (by rw [isBirth]; simp) rfl fun pid isDone => ?_,
      history.proper⟩
    rw [isPoint] at isDone
    cases isDone
    rfl

theorem History.still_answered (history : History s) (moves : Moves s p instr next)
    (returns : ∀ value, instr ≠ .returned value)
    (thread : ∀ q, s'.thread q = if q = p then next else s.thread q) {j child parent : Nat}
    {pid : Int} {stored : Option Int}
    (isLatest : latest j s.log = some (.reaped child parent pid addr stored)) :
    ∃ q, s.birth q ≠ none ∧ s.serial q = j ∧ (s'.thread q).point = .waitDone pid := by
  obtain ⟨q, isBirth, isSerial, isPoint⟩ := history.answered j child parent pid addr stored isLatest
  refine ⟨q, isBirth, isSerial, ?_⟩
  rw [thread q]
  split
  · rename_i isStep
    subst isStep
    exact (moves.returns pid isPoint).resolve_right (returns pid)
  · exact isPoint

/-- `fork` records the parent, and `reparent` hands a child over while its parent exits. -/
theorem History.parents (history : History s) (tree : Tree s) (follows : instr.Follows s p next)
    (isParent : ((execute s p instr).proc q).parent = some r)
    (notParent : (s.proc q).parent ≠ some r) :
    ∃ b f, s.birth q = some b ∧ b.forker = some f ∧ (s.serial r = f ∨ r = s.initproc ∧
      ∃ p, s.serial p = f ∧ (s.thread p).point.HoldsWait ∧ (s.thread p).point.InExit) := by
  have sameSlot : ∀ slot fields, ((s.setProc slot fields).proc q).parent = some r →
      (fields.parent = (s.proc slot).parent ∨ fields.parent = none → False) ∧ q = slot ∧
        fields.parent = some r := by
    intro slot fields isParent
    rw [State.setProc] at isParent
    dsimp only at isParent
    rw [update_apply] at isParent
    split at isParent
    · rename_i isSlot
      subst isSlot
      refine ⟨fun same => ?_, rfl, isParent⟩
      rcases same with same | isNone
      · exact notParent (same.symm.trans isParent)
      · rw [isNone] at isParent
        cases isParent
    · exact absurd isParent notParent
  cases instr with
  | setParent np =>
      obtain ⟨-, rfl, isParent⟩ := sameSlot _ _ isParent
      obtain rfl := Option.some_inj.mp isParent
      obtain ⟨-, -, isPoint, -⟩ := follows
      obtain ⟨b, isBirth, isForker⟩ := history.making p q (by rw [isPoint]; rfl)
      exact ⟨b, _, isBirth, isForker, .inl rfl⟩
  | setInitproc pp =>
      obtain ⟨-, rfl, isParent⟩ := sameSlot _ _ isParent
      obtain rfl := Option.some_inj.mp isParent
      obtain ⟨holds, inExit, wasParent⟩ := follows
      obtain ⟨b, f, isBirth, isForker, isLine⟩ := history.lineage q p wasParent
      refine ⟨b, f, isBirth, isForker, .inr ⟨rfl, p, ?_, holds, inExit⟩⟩
      exact isLine.resolve_right fun isInit => tree.exiting p inExit isInit.1.symm
  | skip | acquireWait | returned => exact absurd isParent notParent
  | allocproc | setRunnable | wakeup | kill | sleep | tidyUp | yield | run | zombie =>
      exact ((sameSlot _ _ isParent).1 (.inl rfl)).elim
  | allocprocFails | reap => exact ((sameSlot _ _ isParent).1 (.inr rfl)).elim

theorem step_history {action : Action n} (history : History s) (tree : Tree s)
    (stepped : step s action = some s') : History s' := by
  obtain ⟨⟨instr, next⟩, decided, rfl⟩ := Option.map_eq_some_iff.mp stepped
  obtain ⟨moves, follows⟩ := threadStep_spec decided
  have parents := fun q r => history.parents (q := q) (r := r) tree follows
  have running := tree.running
  have forking := tree.forking
  cases instr with
  | allocproc np => exact history.allocproc tree follows
  | zombie status => exact history.zombie_step tree follows
  | reap pp addr => exact history.reap tree follows
  | returned value => exact history.returned tree moves follows
  | skip | acquireWait | allocprocFails | setParent | setInitproc | setRunnable | wakeup | kill
  | sleep | tidyUp | yield | run =>
      refine history.plain tree moves (by simp) (by simp) (fun _ => update_apply _ _ _ _) rfl rfl
        rfl ?_ ?_ ?_ (fun q r isParent => or_iff_not_imp_left.mpr (parents q r isParent))
        (fun _ _ => .rfl) history.old (fun _ _ _ _ _ _ isLatest => history.still_answered moves
          (by simp) (fun _ => update_apply _ _ _ _) isLatest) history.proper
      all_goals simp only [execute, State.goto, State.setProc, killProc, Instr.Follows] at *
      all_goals grind [update_apply, Proc.Live, Phase.OnCpu, Point.child, freeproc]

end Rules

/-! ## Runs -/

theorem userinit_history (initproc : Fin n) : History (userinit initproc) := by
  have birth : ∀ q, (userinit initproc).birth q =
      if q = initproc then some ⟨initSerial, none⟩ else none := by
    intro q
    simp only [userinit]
    rw [update_apply]
    rfl
  have proc : ∀ q, (userinit initproc).proc q =
      if q = initproc then { Proc.zero with state := .RUNNABLE, pid := 1 } else Proc.zero := by
    intro q
    simp only [userinit]
    rw [update_apply]
  have noForker : ∀ q b, (userinit initproc).birth q = some b → b = ⟨initSerial, none⟩ := by
    intro q b isBirth
    rw [birth] at isBirth
    split at isBirth <;> cases isBirth
    rfl
  have notZombie : ∀ q, ((userinit initproc).proc q).state ≠ .ZOMBIE := by
    intro q
    rw [proc]
    split <;> simp [Proc.zero]
  constructor
  case unused => grind [Proc.zero]
  case distinct => grind
  case bounded =>
    intro q b isBirth
    rw [noForker q b isBirth]
    exact Nat.one_pos
  case init => exact (birth initproc).trans (if_pos rfl)
  case idle => exact fun _ _ => .inl rfl
  case forked =>
    intro q b f isBirth isForker
    rw [noForker q b isBirth] at isForker
    cases isForker
  case making => simp [userinit, Point.child]
  case lineage => grind [Proc.zero]
  case zombie => exact fun q isZombie => absurd isZombie (notZombie q)
  case proper => trivial
  case old | notExited | notReaped | exits | answered => simp [userinit, latest]

structure Sound (s : State n) : Prop where
  tree : Tree s
  history : History s

theorem reachable_sound {initproc : Fin n}
    (reachable : Reachable step (fun _ _ => True) (userinit initproc) s) : Sound s :=
  reachable.invariant ⟨userinit_tree initproc, userinit_history initproc⟩
    fun _ _ _ sound _ stepped =>
      ⟨step_tree sound.tree stepped, step_history sound.history sound.tree stepped⟩

/-- A zombie is left as it is by every step, except by the `wait` of its parent that reaps it. -/
theorem step_zombie {s' : State n} {action : Action n} {q : Fin n} (tree : Tree s)
    (stepped : step s action = some s') (isZombie : (s.proc q).state = .ZOMBIE) :
    ((s'.proc q).state = .ZOMBIE ∧ (s'.proc q).xstate = (s.proc q).xstate ∧
        (s'.proc q).pid = (s.proc q).pid ∧ s'.serial q = s.serial q) ∨
      (s.proc q).parent = some action.slot ∧ ∃ addr stored,
        s'.log = .reaped (s.serial q) (s.serial action.slot) (s.proc q).pid addr
          stored :: s.log := by
  obtain ⟨⟨instr, next⟩, decided, rfl⟩ := Option.map_eq_some_iff.mp stepped
  have follows := (threadStep_spec decided).2
  have running := tree.running
  have forking := tree.forking
  cases instr with
  | reap pp addr =>
      by_cases isReaped : q = pp
      · subst isReaped
        exact .inr ⟨follows.2.1, addr, _, rfl⟩
      · refine .inl ?_
        simp only [execute, State.goto, State.setProc, State.record, State.serial,
          update_of_ne isReaped, isZombie, and_self]
  | _ =>
      refine .inl ?_
      simp only [execute, State.goto, State.setProc, State.record, State.serial,
        killProc, allocated, Instr.Follows] at *
      grind [update_apply, Phase.OnCpu, Point.child]

/-- **Every process is reaped at most once, and only by its parent.** In every state of every
interleaving the parents are live processes, and the history of the run is a proper one: a
process that has exited is a zombie with its status until a `wait` of its parent reaps it. A
`wait` whose `copyout` fails changes nothing. -/
theorem processes_reaped_by_parents (initproc : Fin n) (s : State n)
    (reachable : Reachable step (fun _ _ => True) (userinit initproc) s) :
    (∀ q, q ≠ s.initproc →
      (s.proc q).state ∈ [ProcState.SLEEPING, .RUNNABLE, .RUNNING, .ZOMBIE] →
        ∃ r, (s.proc q).parent = some r ∧ (s.proc r).state ≠ .UNUSED ∧
          (s.proc r).state ≠ .ZOMBIE) ∧
    Proper s.log ∧
    (∀ i status, .exited i status ∈ s.log →
      (∃ parent pid addr stored, .reaped i parent pid addr stored ∈ s.log) ∨
        ∃ q, s.serial q = i ∧ (s.proc q).state = .ZOMBIE ∧ (s.proc q).xstate = status) ∧
    ∀ action s', step s action = some s' →
      (∀ q, (s.proc q).state = .ZOMBIE →
        ((s'.proc q).state = .ZOMBIE ∧ (s'.proc q).xstate = (s.proc q).xstate ∧
            (s'.proc q).pid = (s.proc q).pid ∧ s'.serial q = s.serial q) ∨
          (s.proc q).parent = some action.slot ∧ ∃ addr stored, s'.log =
            .reaped (s.serial q) (s.serial action.slot) (s.proc q).pid addr stored :: s.log) ∧
      ∀ addr slot havekids, s.thread action.slot = ⟨.running, .scan addr slot havekids⟩ →
        addr ≠ 0 → action.request = .fail → s'.proc = s.proc ∧ s'.log = s.log := by
  obtain ⟨tree, history⟩ := reachable_sound reachable
  refine ⟨fun q notInit isState => ?_, history.proper, fun i status exited => ?_,
    fun action s' stepped => ⟨fun q => step_zombie tree stepped, ?_⟩⟩
  · have inUse : (s.proc q).state ≠ .UNUSED ∧ (s.proc q).state ≠ .USED := by
      constructor <;> intro same <;> rw [same] at isState <;> simp at isState
    obtain ⟨r, isParent⟩ := Option.ne_none_iff_exists'.mp
      (tree.hasParent q notInit inUse.1 inUse.2)
    have live := tree.alive q r isParent
    exact ⟨r, isParent, by grind [Proc.Live], by grind [Proc.Live]⟩
  · refine (history.exits i status exited).imp_right ?_
    rintro ⟨q, _, isSerial, isZombie, isStatus⟩
    exact ⟨q, isSerial, isZombie, isStatus⟩
  · intro addr slot havekids isThread notNull failed
    obtain ⟨⟨instr, next⟩, decided, rfl⟩ := Option.map_eq_some_iff.mp stepped
    obtain rfl : instr = .skip := by
      simp only [threadStep, isThread, failed, pointStep] at decided
      grind
    exact ⟨rfl, rfl⟩

/-- The first process forks; its child exits with status 7; a first `wait` gets an address that
is not mapped, and a second one reaps the child. -/
def reaping : List (Action 3) :=
  ([.proceed, .proceed, .fork, .proceed, .proceed, .proceed, .proceed].map (Action.mk 0)) ++
  ([.proceed, .proceed, .exit 7, .proceed, .proceed, .proceed, .proceed, .proceed, .proceed,
    .proceed, .proceed, .proceed, .proceed, .proceed, .proceed].map (Action.mk 1)) ++
  ([.wait 4, .proceed, .proceed, .fail, .proceed, .wait 4, .proceed, .proceed, .proceed,
    .proceed].map (Action.mk 0))

theorem processes_reaped_by_parents_second_wait :
    ∃ s : State 3, s.log = [.returned 0 2, .reaped 1 0 2 4 (some 7), .returned 0 (-1),
      .exited 1 7, .forked 0 1 2] ∧ Proper s.log := by
  obtain ⟨s, reachable, isLog⟩ := exists_of_follow step (fun _ _ => True) (userinit 0) reaping
    (fun s => s.log = [.returned 0 2, .reaped 1 0 2 4 (some 7), .returned 0 (-1), .exited 1 7,
      .forked 0 1 2])
    (by decide +kernel)
  exact ⟨s, isLog, (processes_reaped_by_parents 0 s reachable).2.1⟩

end Xv6.Family
