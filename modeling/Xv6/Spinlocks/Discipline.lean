import Xv6.Locks.Exclusive
import Xv6.Runs.Reachable

/-!
Contract: the spin-locks of `kernel/spinlock.c` on CPUs with interrupts and kernel threads.

Owns: `push_off`, `pop_off`, `acquire`, `release` and `holding`, a step for each access that
another CPU or an interrupt can come between, traps and returns of kernel code, and `sched`
and `scheduler` as far as they switch threads, with the `intena` that `sched` saves.

Does not own: what critical sections do, and the order of memory accesses. A panic is a step
that is not enabled.
-/

namespace Xv6.Spinlocks

open Function
open Xv6.Locks
open Xv6.Runs

inductive Point (L : Type) where
  /-- Any code between the steps of the functions below. -/
  | code
  /-- In `push_off`, after `old = intr_get()`; `acquire` calls it for a lock. -/
  | pushing (old : Bool) (lk : Option L)
  /-- In the loop of `acquire`. -/
  | spinning (lk : L)
  /-- Before `lk->cpu = mycpu()` in `acquire`. -/
  | recording (lk : L)
  /-- After `lk->cpu = 0` in `release`. -/
  | unlocking (lk : L)
  /-- Before `pop_off()` in `release`. -/
  | popping
  /-- Switched away in `sched`, with its variable `intena`. -/
  | sched (intena : Bool)
  /-- The scheduler of a CPU after its `swtch`, or a process before `forkret`. -/
  | swtch
deriving DecidableEq, Repr

structure Cpu (L : Type) where
  /-- Interrupts are enabled: `sstatus.SIE`. -/
  intr : Bool
  noff : Nat
  intena : Bool
  /-- The locks whose critical section the CPU is in. -/
  held : List L
  /-- The calls of `push_off` not from `acquire` that are not undone yet. -/
  pushes : Nat

structure State (C T L : Type) where
  cpu : C → Cpu L
  current : C → T
  point : T → Point L
  /-- The points at which a thread was interrupted, the last first. -/
  below : T → List (Point L)
  /-- `lk->locked` is not 0; the CPU is the one that set it. -/
  locked : L → Option C
  /-- `lk->cpu` -/
  owner : L → Option C
  /-- Interrupts were enabled when the thread last went to `noff = 1`. -/
  found : T → Bool
  /-- `intena` of the CPU of the thread is what the thread stored then: not after a `swtch`
  outside `sched`, which alone saves `intena`. -/
  own : T → Bool

section Steps

variable {C T L : Type} [DecidableEq C] [DecidableEq T] [DecidableEq L]

/-- The point of the thread on `c`. -/
def State.at (s : State C T L) (c : C) : Point L := s.point (s.current c)

/-- The CPU `c` and the point of its thread. -/
def State.put (s : State C T L) (c : C) (cpu : Cpu L) (point : Point L) : State C T L :=
  { s with cpu := update s.cpu c cpu, point := update s.point (s.current c) point }

def holding (s : State C T L) (c : C) (lk : L) : Bool :=
  (s.locked lk).isSome && s.owner lk = some c

inductive Action (C T L : Type) where
  /-- `intr_on` or `intr_off`, by code that has no lock. -/
  | setIntr (c : C) (enabled : Bool)
  /-- The start of `push_off`, or of `acquire`. -/
  | pushOff (c : C) (lk : Option L)
  | intrOff (c : C)
  | swap (c : C)
  | record (c : C)
  | release (c : C) (lk : L)
  | unlock (c : C)
  | popOff (c : C)
  | trap (c : C)
  | sret (c : C)
  | swtch (c : C) (t : T)

/-- The rest of `push_off` from `intr_off()` on, and the check of `acquire`. -/
def disable (s : State C T L) (c : C) (old : Bool) (lk : Option L) : Option (State C T L) :=
  let cpu := s.cpu c
  let outer := cpu.noff = 0
  let found := if outer then update s.found (s.current c) old else s.found
  let own := if outer then update s.own (s.current c) true else s.own
  let cpu := { cpu with intr := false, noff := cpu.noff + 1,
                        intena := if outer then old else cpu.intena }
  match lk with
  | none => some ({ s with found, own }.put c { cpu with pushes := cpu.pushes + 1 } .code)
  | some lk =>
      if holding s c lk then none else some ({ s with found, own }.put c cpu (.spinning lk))

/-- `pop_off` -/
def enable (s : State C T L) (c : C) (pushes : Nat) : Option (State C T L) :=
  let cpu := s.cpu c
  if cpu.intr ∨ cpu.noff < 1 then none
  else
    let intr := if cpu.noff - 1 = 0 ∧ cpu.intena then true else cpu.intr
    some (s.put c { cpu with noff := cpu.noff - 1, intr, pushes } .code)

/-- The thread `t`, which is not running, goes on on `c`. -/
def resume (s : State C T L) (c : C) (t : T) : Option (State C T L) :=
  let s := { s with current := update s.current c t }
  match s.point t with
  | .sched intena => some (s.put c { s.cpu c with intena } .code)
  | .swtch => some ({ s with own := update s.own t false }.put c (s.cpu c) .code)
  | _ => none

variable (process : T → Bool)

def step (s : State C T L) : Action C T L → Option (State C T L)
  | .setIntr c intr =>
      if s.at c = .code ∧ (s.cpu c).noff = 0 then some (s.put c { s.cpu c with intr } .code)
      else none
  | .pushOff c lk =>
      if s.at c = .code then some (s.put c (s.cpu c) (.pushing (s.cpu c).intr lk)) else none
  | .intrOff c => match s.at c with
      | .pushing old lk => disable s c old lk
      | _ => none
  | .swap c => match s.at c with
      | .spinning lk =>
          if s.locked lk = none then
            some ({ s with locked := update s.locked lk (some c) }.put c (s.cpu c) (.recording lk))
          else some s
      | _ => none
  | .record c => match s.at c with
      | .recording lk => some ({ s with owner := update s.owner lk (some c) }.put c
          { s.cpu c with held := lk :: (s.cpu c).held } .code)
      | _ => none
  | .release c lk =>
      if s.at c = .code ∧ holding s c lk then
        some ({ s with owner := update s.owner lk none }.put c
          { s.cpu c with held := (s.cpu c).held.erase lk } (.unlocking lk))
      else none
  | .unlock c => match s.at c with
      | .unlocking lk =>
          some ({ s with locked := update s.locked lk none }.put c (s.cpu c) .popping)
      | _ => none
  | .popOff c => match s.at c, (s.cpu c).pushes with
      | .popping, pushes => enable s c pushes
      | .code, pushes + 1 => enable s c pushes
      | _, _ => none
  | .trap c =>
      if (s.cpu c).intr then
        let below := update s.below (s.current c) (s.at c :: s.below (s.current c))
        some ({ s with below }.put c { s.cpu c with intr := false } .code)
      else none
  | .sret c => match s.at c, s.below (s.current c) with
      | .code, point :: rest =>
          -- Handlers release what they acquire.
          if (s.cpu c).noff = 0 then
            some ({ s with below := update s.below (s.current c) rest }.put c
              { s.cpu c with intr := true } point)
          else none
      | _, _ => none
  | .swtch c t =>
      let cpu := s.cpu c
      if s.at c = .code ∧ cpu.noff = 1 ∧ cpu.held.length = 1 ∧ cpu.intr = false then
        resume (s.put c cpu (if process (s.current c) then .sched cpu.intena else .swtch)) c t
      else none

/-! ## The invariant -/

/-- The call of `push_off` by `acquire` that `release` has not undone yet, outside the critical
section. -/
def Point.depth : Point L → Nat
  | .spinning _ | .recording _ | .unlocking _ | .popping => 1
  | _ => 0

/-- What a CPU and the thread on it agree on. -/
structure Local (cpu : Cpu L) (point : Point L) (own found : Bool) : Prop where
  running : point ≠ .swtch ∧ ∀ intena, point ≠ .sched intena
  noff : cpu.noff = cpu.held.length + cpu.pushes + point.depth
  masked : 0 < cpu.noff → cpu.intr = false
  read : ∀ old lk, point = .pushing old lk → cpu.intr = old
  intena : 0 < cpu.noff → own = true → cpu.intena = found
  nodup : cpu.held.Nodup
  outside : ∀ lk ∈ cpu.held, point ≠ .spinning lk ∧ point ≠ .recording lk ∧ point ≠ .unlocking lk

/-- The CPU has set the lock. -/
def Has (cpu : Cpu L) (point : Point L) (lk : L) : Prop :=
  lk ∈ cpu.held ∨ point = .recording lk ∨ point = .unlocking lk

structure Sound (s : State C T L) : Prop where
  alone : Injective s.current
  each : ∀ c, Local (s.cpu c) (s.at c) (s.own (s.current c)) (s.found (s.current c))
  /-- Code is interrupted only where interrupts are enabled. -/
  below : ∀ t, ∀ point ∈ s.below t, point = .code ∨ ∃ lk, point = .pushing true lk
  saved : ∀ t intena, s.point t = .sched intena → s.own t = true → intena = s.found t
  locked : Exclusive s.locked fun c => Has (s.cpu c) (s.at c)
  owner : Exclusive s.owner fun c lk => lk ∈ (s.cpu c).held

section Rules

variable {s s' : State C T L} {c : C} {cpu : Cpu L} {point away : Point L} {found own : T → Bool}
  {below : T → List (Point L)} {t : T} {locked owner : L → Option C}

omit [DecidableEq L] in
/-- A CPU leaves its thread at `away` and goes on with the thread `t`, perhaps the same one. -/
theorem Sound.move (sound : Sound s) (isLocal : Local cpu point (own t) (found t))
    (notTaken : ∀ d, d ≠ c → s.current d ≠ t)
    (saves : ∀ i, away = .sched i → s.own (s.current c) = true → i = s.found (s.current c))
    (same : ∀ u, u ≠ t → own u = s.own u ∧ found u = s.found u)
    (isBelow : ∀ u, ∀ point ∈ below u, point = .code ∨ ∃ lk, point = .pushing true lk)
    (isLocked : Exclusive locked (update (fun c => Has (s.cpu c) (s.at c)) c (Has cpu point)))
    (isOwner : Exclusive owner (update (fun c lk => lk ∈ (s.cpu c).held) c (· ∈ cpu.held))) :
    Sound { cpu := update s.cpu c cpu, current := update s.current c t,
            point := update (update s.point (s.current c) away) t point,
            below, found, own, locked, owner } := by
  have elsewhere : ∀ d, d ≠ c → s.current d ≠ s.current c := fun d different same =>
    different (sound.alone same)
  -- What is kept of each CPU is kept of `c` and, as it was, of the others.
  have both : ∀ {α : Type} (of : Cpu L → Point L → α) d,
      of (update s.cpu c cpu d)
        (update (update s.point (s.current c) away) t point (update s.current c t d)) =
        update (fun d => of (s.cpu d) (s.at d)) c (of cpu point) d := by
    intro α of d
    rcases eq_or_ne d c with rfl | different
    · simp only [update_self]
    · simp only [update_of_ne different, update_of_ne (notTaken d different),
        update_of_ne (elsewhere d different), State.at]
  refine ⟨fun d d' same => ?_, fun d => ?_, isBelow, fun u i isPoint isOwn => ?_, ?_, ?_⟩
  · simp only [update_apply] at same
    split_ifs at same with first second second
    · exact first.trans second.symm
    · exact absurd same.symm (notTaken d' second)
    · exact absurd same (notTaken d first)
    · exact sound.alone same
  · rcases eq_or_ne d c with rfl | different
    · simpa only [State.at, update_self] using isLocal
    · obtain ⟨sameOwn, sameFound⟩ := same _ (notTaken d different)
      simpa only [State.at, update_of_ne different, update_of_ne (notTaken d different),
        update_of_ne (elsewhere d different), sameOwn, sameFound] using sound.each d
  · rcases eq_or_ne u t with rfl | notNew
    · exact absurd ((update_self ..).symm.trans isPoint) (isLocal.running.2 i)
    · obtain ⟨sameOwn, sameFound⟩ := same u notNew
      simp only [update_of_ne notNew, sameOwn, sameFound] at isPoint isOwn ⊢
      rcases eq_or_ne u (s.current c) with rfl | different
      · rw [update_self] at isPoint
        exact saves i isPoint isOwn
      · exact sound.saved u i ((update_of_ne different ..).symm.trans isPoint) isOwn
  · exact fun d lk => (isLocked d lk).trans (iff_of_eq (congrFun (both Has d) lk)).symm
  · exact fun d lk => (isOwner d lk).trans
      (iff_of_eq (congrFun (both (fun cpu _ lk => lk ∈ cpu.held) d) lk)).symm

omit [DecidableEq L] in
theorem Sound.put (sound : Sound s)
    (isLocal : Local cpu point (own (s.current c)) (found (s.current c)))
    (same : ∀ t, t ≠ s.current c → own t = s.own t ∧ found t = s.found t)
    (isBelow : ∀ t, ∀ point ∈ below t, point = .code ∨ ∃ lk, point = .pushing true lk)
    (isLocked : Exclusive locked (update (fun c => Has (s.cpu c) (s.at c)) c (Has cpu point)))
    (isOwner : Exclusive owner (update (fun c lk => lk ∈ (s.cpu c).held) c (· ∈ cpu.held))) :
    Sound ({ s with below, found, own, locked, owner }.put c cpu point) := by
  have moved := sound.move isLocal (fun d different same => different (sound.alone same))
    (fun i isSched => absurd isSched (isLocal.running.2 i)) same isBelow isLocked isOwner
  simpa only [update_eq_self, update_idem, State.put] using moved

omit [DecidableEq L] in
/-- A CPU and its thread move on without a change of its locks. -/
theorem Sound.keep (sound : Sound s)
    (isLocal : Local cpu point (own (s.current c)) (found (s.current c)))
    (same : ∀ t, t ≠ s.current c → own t = s.own t ∧ found t = s.found t)
    (isBelow : ∀ t, ∀ point ∈ below t, point = .code ∨ ∃ lk, point = .pushing true lk)
    (sameHeld : cpu.held = (s.cpu c).held)
    (sameLocks : ∀ lk, Has cpu point lk ↔ Has (s.cpu c) (s.at c) lk) :
    Sound ({ s with below, found, own }.put c cpu point) := by
  refine sound.put isLocal same isBelow (sound.locked.keep sameLocks) (sound.owner.keep ?_)
  simp only [sameHeld, implies_true]

omit [DecidableEq L] in
/-- A CPU leaves its thread in a critical section for the thread `t`. -/
theorem Sound.switch (sound : Sound s) {intena : Bool} (isCode : s.at c = .code)
    (inside : 0 < (s.cpu c).noff) (saves : ∀ i, away = .sched i → i = (s.cpu c).intena)
    (waits : update s.point (s.current c) away t = .swtch ∨
      ∃ i, update s.point (s.current c) away t = .sched i)
    (isOwn : own t = true → intena = s.found t) (same : ∀ u, u ≠ t → own u = s.own u) :
    Sound { s with cpu := update s.cpu c { s.cpu c with intena }, current := update s.current c t,
                   point := update (update s.point (s.current c) away) t .code, own } := by
  have old := sound.each c
  -- A thread on another CPU is not waiting.
  have notTaken : ∀ d, d ≠ c → s.current d ≠ t := by
    rintro d different rfl
    rw [update_of_ne fun same => different (sound.alone same)] at waits
    rcases waits with waits | ⟨i, waits⟩
    · exact (sound.each d).running.1 waits
    · exact (sound.each d).running.2 i waits
  refine sound.move ?_ notTaken
    (fun i isSched isOwn => (saves i isSched).trans (old.intena inside isOwn))
    (fun u different => ⟨same u different, rfl⟩) sound.below (sound.locked.keep ?_)
    (sound.owner.keep fun _ => .rfl)
  · rw [isCode] at old
    exact { old with intena := fun _ => isOwn }
  · simp only [Has, isCode, implies_true]

omit [DecidableEq L] in
theorem Sound.enable {pushes : Nat} (sound : Sound s) (enabled : enable s c pushes = some s')
    (isPoint : s.at c = .popping ∨ s.at c = .code)
    (isDepth : (s.cpu c).noff = (s.cpu c).held.length + pushes + 1) : Sound s' := by
  have old := sound.each c
  have noLock : ∀ lk, Has (s.cpu c) (s.at c) lk ↔ lk ∈ (s.cpu c).held := by
    intro lk
    rcases isPoint with isPoint | isPoint
    · simp [Has, isPoint]
    · simp [Has, isPoint]
  simp only [Spinlocks.enable] at enabled
  split at enabled <;> cases enabled
  rename_i canPop
  refine sound.keep
      { running := by simp, noff := ?_, masked := fun inside => ?_, read := by simp
        intena := fun inside => old.intena (Nat.lt_of_lt_of_le inside (Nat.sub_le ..))
        nodup := old.nodup, outside := by simp }
      (fun _ _ => ⟨rfl, rfl⟩) sound.below rfl fun lk => ?_
  · show (s.cpu c).noff - 1 = (s.cpu c).held.length + pushes + 0
    omega
  · -- Interrupts stay off while a call of `push_off` is not undone.
    have notLast : ¬ ((s.cpu c).noff - 1 = 0 ∧ (s.cpu c).intena = true) :=
      fun isLast => Nat.ne_of_gt inside isLast.1
    simp only [if_neg notLast]
    exact Bool.eq_false_iff.mpr fun isOn => canPop (.inl isOn)
  · rw [noLock]
    simp [Has]

omit [DecidableEq T] [DecidableEq L] in
theorem Sound.holding_iff (sound : Sound s) {lk : L} : holding s c lk ↔ lk ∈ (s.cpu c).held := by
  rw [holding, Bool.and_eq_true, decide_eq_true_eq, sound.owner c lk]
  refine ⟨And.right, fun isHeld => ⟨?_, isHeld⟩⟩
  rw [(sound.locked c lk).mpr (.inl isHeld)]
  rfl

omit [DecidableEq L] in
theorem Sound.disable {before : Bool} {lk : Option L} (sound : Sound s)
    (isPoint : s.at c = .pushing before lk) (disabled : disable s c before lk = some s') :
    Sound s' := by
  have old := sound.each c
  have isDepth : (s.cpu c).noff = (s.cpu c).held.length + (s.cpu c).pushes := by
    simpa [isPoint, Point.depth] using old.noff
  have same : ∀ t, t ≠ s.current c →
      (if (s.cpu c).noff = 0 then update s.own (s.current c) true else s.own) t = s.own t ∧
      (if (s.cpu c).noff = 0 then update s.found (s.current c) before else s.found) t =
        s.found t := by
    intro t different
    split
    · exact ⟨update_of_ne different .., update_of_ne different ..⟩
    · exact ⟨rfl, rfl⟩
  -- Outermost, `intena` is what was found; inside, it is not written.
  have isIntena :
      (if (s.cpu c).noff = 0 then update s.own (s.current c) true else s.own) (s.current c) = true →
      (if (s.cpu c).noff = 0 then before else (s.cpu c).intena) =
        (if (s.cpu c).noff = 0 then update s.found (s.current c) before else s.found)
          (s.current c) := by
    split
    · simp
    · rename_i inside
      exact old.intena (Nat.pos_of_ne_zero inside)
  cases lk with
  | none =>
      cases disabled
      refine sound.keep
          { running := by simp, noff := ?_, masked := fun _ => rfl, read := by simp
            intena := fun _ => isIntena, nodup := old.nodup, outside := by simp }
          same sound.below rfl (by simp [Has, isPoint])
      simp only [isDepth, Point.depth]
      omega
  | some lk =>
      simp only [Spinlocks.disable] at disabled
      split at disabled <;> cases disabled
      rename_i notHolding
      rw [sound.holding_iff] at notHolding
      refine sound.keep
          { running := by simp, noff := ?_, masked := fun _ => rfl, read := by simp
            intena := fun _ => isIntena, nodup := old.nodup, outside := fun k isHeld => ?_ } same
        sound.below rfl (by simp [Has, isPoint])
      · simp only [isDepth, Point.depth]
      · have different : lk ≠ k := fun isLock => notHolding (isLock ▸ isHeld)
        simp [different]

end Rules

variable {process}

theorem Sound.step {s s' : State C T L} {action : Action C T L} (sound : Sound s)
    (stepped : step process s action = some s') : Sound s' := by
  have sameGhosts : ∀ c t, t ≠ s.current c → s.own t = s.own t ∧ s.found t = s.found t :=
    fun _ _ _ => ⟨rfl, rfl⟩
  cases action with
  | setIntr c intr =>
      simp only [Spinlocks.step] at stepped
      split at stepped <;> cases stepped
      rename_i can
      obtain ⟨isPoint, notInside⟩ := can
      have old := isPoint ▸ sound.each c
      have never : ∀ {P : Prop}, 0 < (s.cpu c).noff → P := fun inside =>
        absurd notInside (Nat.ne_of_gt inside)
      exact sound.keep { old with masked := never, read := by simp, intena := never }
        (sameGhosts c) sound.below rfl (by simp [Has, isPoint])
  | pushOff c lk =>
      simp only [Spinlocks.step] at stepped
      split at stepped <;> cases stepped
      rename_i isPoint
      have old := isPoint ▸ sound.each c
      refine sound.keep { old with running := by simp, read := ?_, outside := by simp }
        (sameGhosts c) sound.below rfl (by simp [Has, isPoint])
      rintro before lk ⟨⟩
      rfl
  | intrOff c =>
      simp only [Spinlocks.step] at stepped
      split at stepped
      · rename_i isPoint
        exact sound.disable isPoint stepped
      · cases stepped
  | swap c =>
      simp only [Spinlocks.step] at stepped
      split at stepped
      · rename_i lk isPoint
        split at stepped <;> cases stepped
        · rename_i isFree
          have old := isPoint ▸ sound.each c
          refine sound.put
              { old with running := by simp, read := by simp, outside := fun k isHeld => ?_ }
              (sameGhosts c) sound.below (sound.locked.acquire isFree fun k => ?_)
              (sound.owner.keep fun _ => .rfl)
          · have different : lk ≠ k := fun isLock => (old.outside k isHeld).1 (by rw [isLock])
            simp [different]
          · simp [Has, isPoint, or_comm, eq_comm]
        · exact sound
      · cases stepped
  | record c =>
      simp only [Spinlocks.step] at stepped
      split at stepped <;> cases stepped
      rename_i lk isPoint
      have old := isPoint ▸ sound.each c
      have notHeld : lk ∉ (s.cpu c).held := fun isHeld => (old.outside lk isHeld).2.1 rfl
      have isFree : s.owner lk = none := by
        by_contra isOwned
        obtain ⟨d, isOwner⟩ := Option.ne_none_iff_exists'.mp isOwned
        have isHeld := (sound.owner d lk).mp isOwner
        obtain rfl := sound.locked.unique (.inr (.inl isPoint)) (.inl isHeld)
        exact notHeld isHeld
      refine sound.put
          { old with running := by simp, noff := ?_, read := by simp
                     nodup := List.nodup_cons.mpr ⟨notHeld, old.nodup⟩, outside := by simp }
          (sameGhosts c) sound.below (sound.locked.keep fun k => ?_)
          (sound.owner.acquire isFree fun k => List.mem_cons)
      · have isDepth := old.noff
        simp only [Point.depth, List.length_cons] at isDepth ⊢
        omega
      · simp [Has, isPoint, or_comm, eq_comm]
  | release c lk =>
      simp only [Spinlocks.step] at stepped
      split at stepped <;> cases stepped
      rename_i can
      obtain ⟨isPoint, isHolding⟩ := can
      have old := isPoint ▸ sound.each c
      have isHeld := sound.holding_iff.mp isHolding
      have left : ∀ k, k ∈ (s.cpu c).held.erase lk ↔ k ∈ (s.cpu c).held ∧ k ≠ lk := fun k => by
        rw [old.nodup.mem_erase_iff, and_comm]
      refine sound.put
          { old with running := by simp, noff := ?_, read := by simp, nodup := old.nodup.erase lk
                     outside := fun k isLeft => ?_ } (sameGhosts c) sound.below
        (sound.locked.keep fun k => ?_) (sound.owner.release isHeld left)
      · have isDepth := old.noff
        have := List.length_pos_of_mem isHeld
        simp only [Point.depth, List.length_erase_of_mem isHeld] at isDepth ⊢
        omega
      · have different : lk ≠ k := ((left k).mp isLeft).2.symm
        simp [different]
      · rcases eq_or_ne k lk with rfl | different
        · simp [Has, isPoint, isHeld]
        · simp [Has, isPoint, left, different, different.symm]
  | unlock c =>
      simp only [Spinlocks.step] at stepped
      split at stepped <;> cases stepped
      rename_i lk isPoint
      have old := isPoint ▸ sound.each c
      have notHeld : lk ∉ (s.cpu c).held := fun isHeld => (old.outside lk isHeld).2.2 rfl
      refine sound.put { old with running := by simp, read := by simp, outside := by simp }
        (sameGhosts c) sound.below (sound.locked.release (.inr (.inr isPoint)) fun k => ?_)
        (sound.owner.keep fun _ => .rfl)
      rcases eq_or_ne k lk with rfl | different
      · simp [Has, notHeld]
      · simp [Has, isPoint, different, different.symm]
  | popOff c =>
      have old := sound.each c
      simp only [Spinlocks.step] at stepped
      split at stepped
      · rename_i isPoint
        exact sound.enable stepped (.inl isPoint) (by simpa [isPoint, Point.depth] using old.noff)
      · rename_i isPoint isPushed
        refine sound.enable stepped (.inr isPoint) ?_
        simpa [isPoint, isPushed, Point.depth, add_assoc] using old.noff
      · cases stepped
  | trap c =>
      simp only [Spinlocks.step] at stepped
      split at stepped <;> cases stepped
      rename_i isEnabled
      have old := sound.each c
      have notInside : (s.cpu c).noff = 0 := by
        by_contra positive
        rw [old.masked (Nat.pos_of_ne_zero positive)] at isEnabled
        cases isEnabled
      have isPoint : s.at c = .code ∨ ∃ lk, s.at c = .pushing true lk := by
        cases isAt : s.at c with
        | code => exact .inl rfl
        | pushing before lk => exact .inr ⟨lk, by rw [← old.read before lk isAt, isEnabled]⟩
        | sched intena => exact absurd isAt (old.running.2 intena)
        | swtch => exact absurd isAt old.running.1
        | spinning lk | recording lk | unlocking lk | popping =>
            have isDepth := old.noff
            simp only [isAt, Point.depth] at isDepth
            omega
      have isDepth : (s.cpu c).noff = (s.cpu c).held.length + (s.cpu c).pushes := by
        have := old.noff
        omega
      refine sound.keep
          { old with running := by simp, noff := isDepth, masked := fun _ => rfl, read := by simp
                     outside := by simp } (sameGhosts c) (fun t point isBelow => ?_) rfl ?_
      · rcases eq_or_ne t (s.current c) with rfl | different
        · rw [update_self] at isBelow
          rcases List.mem_cons.mp isBelow with rfl | wasBelow
          · exact isPoint
          · exact sound.below _ point wasBelow
        · exact sound.below t point (update_of_ne different (_ :: _) s.below ▸ isBelow)
      · rcases isPoint with isPoint | ⟨lk, isPoint⟩
        · simp [Has, isPoint]
        · simp [Has, isPoint]
  | sret c =>
      simp only [Spinlocks.step] at stepped
      split at stepped
      · rename_i point rest isPoint isBelow
        split at stepped <;> cases stepped
        rename_i notInside
        have old := isPoint ▸ sound.each c
        have never : ∀ {P : Prop}, 0 < (s.cpu c).noff → P := fun inside =>
          absurd notInside (Nat.ne_of_gt inside)
        have restBelow : ∀ t, ∀ point ∈ update s.below (s.current c) rest t,
            point = .code ∨ ∃ lk, point = .pushing true lk := by
          intro t point isRest
          rcases eq_or_ne t (s.current c) with rfl | different
          · rw [update_self] at isRest
            exact sound.below _ point (isBelow ▸ List.mem_cons_of_mem _ isRest)
          · exact sound.below t point (update_of_ne different rest s.below ▸ isRest)
        rcases sound.below (s.current c) point (by simp [isBelow]) with rfl | ⟨lk, rfl⟩
        · exact sound.keep { old with masked := never, read := by simp, intena := never }
            (sameGhosts c) restBelow rfl (by simp [Has, isPoint])
        · refine sound.keep
              { old with running := by simp, masked := never, read := ?_, intena := never
                         outside := by simp } (sameGhosts c) restBelow rfl (by simp [Has, isPoint])
          rintro before lk ⟨⟩
          rfl
      · cases stepped
  | swtch c t =>
      simp only [Spinlocks.step, resume] at stepped
      split at stepped
      · rename_i can
        have old := sound.each c
        have inside : 0 < (s.cpu c).noff := by omega
        have saves : ∀ i, (if process (s.current c) then .sched (s.cpu c).intena else .swtch) =
            (.sched i : Point L) → i = (s.cpu c).intena := by
          intro i isAway
          split at isAway <;> cases isAway
          rfl
        split at stepped <;> cases stepped
        · rename_i intena isPoint
          have isOwn : s.own t = true → intena = s.found t := by
            intro isOwn
            rcases eq_or_ne t (s.current c) with rfl | different
            · simp only [State.put, update_self] at isPoint
              rw [saves intena isPoint, old.intena inside isOwn]
            · exact sound.saved t intena ((update_of_ne different ..).symm.trans isPoint) isOwn
          simpa [State.put] using sound.switch can.1 inside saves (.inr ⟨intena, isPoint⟩) isOwn
            fun _ _ => rfl
        · rename_i isPoint
          have lost : update s.own t false t = true → (s.cpu c).intena = s.found t := by simp
          simpa [State.put] using sound.switch can.1 inside saves (.inl isPoint) lost
            fun u different => update_of_ne different ..
      · cases stepped

/-- All locks free, interrupts off, every CPU in its own code. -/
def boot (current : C → T) (point : T → Point L) : State C T L where
  cpu _ := ⟨false, 0, false, [], 0⟩
  current
  point
  below _ := []
  locked _ := none
  owner _ := none
  found _ := false
  own _ := false

omit [DecidableEq C] [DecidableEq T] [DecidableEq L] in
theorem boot_sound {current : C → T} {point : T → Point L} (alone : Injective current)
    (running : ∀ c, point (current c) = .code) (waiting : ∀ t intena, point t ≠ .sched intena) :
    Sound (boot current point) := by
  refine ⟨alone, fun c => ?_, by simp [boot], fun t intena isPoint => absurd isPoint (waiting t _),
    ?_, by simp [boot, Exclusive]⟩
  · constructor <;> simp [boot, State.at, running, Point.depth]
  · simp [boot, Exclusive, State.at, running, Has]

/-- **The discipline of spin-locks.** In every run of any number of CPUs and threads, with
interrupts wherever they are enabled and threads that change their CPU, a lock has at most one
CPU in its critical section; a CPU takes no interrupt while its `noff` is not 0, so never in a
critical section; no CPU spins for a lock that it has itself, as an interrupt handler would for
a lock of the code it interrupted; `acquire` and `release` panic only for a caller that has, or
has not, the lock; `pop_off` never panics in `release`, and the last one leaves interrupts as
the thread found them when it entered, on whatever CPU. A thread that was switched away outside
`sched`, as a scheduler loop is, does not get back its `intena`, and is left with that of the
CPU. -/
theorem spinlock_discipline {current : C → T} {point : T → Point L} {s : State C T L}
    (alone : Injective current) (running : ∀ c, point (current c) = .code)
    (waiting : ∀ t intena, point t ≠ .sched intena)
    (reachable : Reachable (step process) (fun _ _ => True) (boot current point) s) :
    (∀ lk c c', lk ∈ (s.cpu c).held → lk ∈ (s.cpu c').held → c = c') ∧
    (∀ c, ((s.cpu c).held ≠ [] → 0 < (s.cpu c).noff) ∧
      (0 < (s.cpu c).noff → step process s (.trap c) = none)) ∧
    (∀ c lk, s.at c = .spinning lk → s.locked lk ≠ some c) ∧
    (∀ c lk, holding s c lk ↔ lk ∈ (s.cpu c).held) ∧
    ∀ c, s.at c = .popping → ∃ s', step process s (.popOff c) = some s' ∧
      ((s.cpu c).noff = 1 → (s'.cpu c).intr =
        if s.own (s.current c) then s.found (s.current c) else (s.cpu c).intena) := by
  have sound : Sound s := reachable.invariant (boot_sound alone running waiting)
    fun _ _ _ sound _ stepped => sound.step stepped
  refine ⟨fun lk c c' first second => sound.owner.unique first second, fun c => ⟨?_, ?_⟩,
    fun c lk isPoint isLocked => ?_, fun c lk => ?_, fun c isPoint => ?_⟩
  · intro holds
    have := List.length_pos_iff.mpr holds
    have := (sound.each c).noff
    omega
  · intro positive
    simp [Spinlocks.step, (sound.each c).masked positive]
  · rcases (sound.locked c lk).mp isLocked with isHeld | isAt
    · exact ((sound.each c).outside lk isHeld).1 isPoint
    · simp [isPoint] at isAt
  · exact sound.holding_iff
  · have old := sound.each c
    have positive : 0 < (s.cpu c).noff := by
      rw [old.noff, isPoint]
      exact Nat.succ_pos _
    have masked := old.masked positive
    simp only [Spinlocks.step, isPoint, Spinlocks.enable]
    rw [if_neg (by simpa [masked] using positive.ne')]
    refine ⟨_, rfl, fun isLast => ?_⟩
    have isIntena : (s.cpu c).intena =
        if s.own (s.current c) then s.found (s.current c) else (s.cpu c).intena := by
      split
      · exact old.intena positive ‹_›
      · rfl
    rw [← isIntena]
    simp [State.put, isLast, masked]

/-- A scheduler loop takes a lock with interrupts on and runs a process, which yields in a timer
interrupt: the `release` of the loop leaves interrupts off. -/
theorem spinlock_discipline_scheduler : ∃ s s' : State Unit Bool Unit, s.current () = false ∧
    s.found false = true ∧ s.own false = false ∧ step id s (.trap ()) = none ∧
    step id s (.popOff ()) = some s' ∧ (s'.cpu ()).intr = false := by
  obtain ⟨s, reachable, isThread, isPoint, isLast, found, own, intena⟩ := exists_of_follow
    (step (id : Bool → Bool)) (fun _ _ => True)
    (boot (fun _ : Unit => false) fun t => if t then .swtch else .code)
    [.setIntr () true, .pushOff () (some ()), .intrOff (), .swap (), .record (), .swtch () true,
      .release () (), .unlock (), .popOff (), .trap (), .pushOff () (some ()), .intrOff (),
      .swap (), .record (), .swtch () false, .release () (), .unlock ()]
    (fun s => s.current () = false ∧ s.at () = .popping ∧ (s.cpu ()).noff = 1 ∧
      s.found false = true ∧ s.own false = false ∧ (s.cpu ()).intena = false) rfl
  obtain ⟨-, masked, -, -, pops⟩ := spinlock_discipline (fun _ _ _ => rfl) (by simp)
    (by simp) reachable
  obtain ⟨s', stepped, left⟩ := pops () isPoint
  refine ⟨s, s', isThread, found, own, (masked ()).2 (by omega), stepped, ?_⟩
  rw [left isLast, isThread, own, intena]
  rfl

end Steps

end Xv6.Spinlocks
