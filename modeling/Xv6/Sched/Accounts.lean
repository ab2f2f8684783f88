import Xv6.Sched.Membership

/-!
Contract: the CPU time a process is charged with, over every interleaving.

Owns: the account of one process (`Account`), that every kind of step keeps all
accounts, and what follows in every reachable state: `virtualRuntime` and
`currentRuntime` add up to the ticks charged, a queued process has no
`currentRuntime`, and no process outlives its slice by more than the tick that is
being handled.
-/

namespace Xv6.Sched

open Xv6.Kernel
open Xv6.Cfs
open Function

/-- A trap handler is about to decide whether its process is preempted. -/
def Deciding (frames : List Frame) : Prop := ∃ below, frames = .yield :: .trapret :: below

/-- The account of a process with this life, this many charged ticks and these
frames. -/
structure Account (life : Life) (charged : Nat) (frames : List Frame) : Prop where
  fresh : life.state = .RUNNABLE ∨ life.state = .USED → life.currentRuntime = 0
  balance : life.state ≠ .UNUSED →
    (life.virtualRuntime + life.currentRuntime) % 2 ^ 32 = (charged : Int) % 2 ^ 32
  nonneg : 0 ≤ life.currentRuntime
  bounded : life.maximumExecutiontime < 2 ^ 31
  slice : WithinSlice life ∨
    Deciding frames ∧ life.currentRuntime ≤ max life.maximumExecutiontime min_granularity

def Accounts (k : Kernel) : Prop :=
  ∀ q, Account (lifeOf k.memory q) (k.charged q) (k.stack (.inl q))

section One

variable {life : Life} {charged : Nat} {frames frames' : List Frame}

theorem withinSlice_of_zero (zero : life.currentRuntime = 0) : WithinSlice life := by
  unfold WithinSlice min_granularity
  omega

theorem Account.move (account : Account life charged frames)
    (decided : Deciding frames → WithinSlice life) : Account life charged frames' where
  fresh := account.fresh
  balance := account.balance
  nonneg := account.nonneg
  bounded := account.bounded
  slice := .inl (account.slice.elim id fun deciding => decided deciding.1)

theorem Account.setState {state : ProcState} (account : Account life charged frames)
    (alive : state = .UNUSED ∨ life.state ≠ .UNUSED)
    (fresh : state = .RUNNABLE ∨ state = .USED → life.currentRuntime = 0)
    (decided : Deciding frames → WithinSlice life) :
    Account { life with state } charged frames' where
  fresh := fresh
  balance := by
    intro live
    exact account.balance (alive.resolve_left live)
  nonneg := account.nonneg
  bounded := account.bounded
  slice := .inl (account.slice.elim id fun deciding => decided deciding.1)

theorem Account.requeue (account : Account life charged frames) (live : life.state ≠ .UNUSED) :
    Account { life with
      state := .RUNNABLE
      virtualRuntime := int32 (life.virtualRuntime + life.currentRuntime)
      currentRuntime := 0 } charged frames' where
  fresh := fun _ => rfl
  balance := by
    intro _
    rw [← account.balance live]
    simp only [Int.add_zero]
    exact int32_emod _
  nonneg := Int.le_refl 0
  bounded := account.bounded
  slice := .inl (withinSlice_of_zero rfl)

theorem Account.reset {state : ProcState} : Account ⟨state, 0, 0, 0⟩ 0 frames where
  fresh := fun _ => rfl
  balance := fun _ => rfl
  nonneg := Int.le_refl 0
  bounded := show (0 : Int) < 2 ^ 31 by decide
  slice := .inl (withinSlice_of_zero rfl)

/-- A new slice for a process with no `currentRuntime`. -/
theorem Account.setSlice {slice : Int} (account : Account life charged frames)
    (runnable : life.state = .RUNNABLE) (bounded : slice < 2 ^ 31) :
    Account { life with maximumExecutiontime := slice } charged frames where
  fresh := account.fresh
  balance := account.balance
  nonneg := account.nonneg
  bounded := bounded
  slice := .inl (withinSlice_of_zero (account.fresh (.inl runnable)))

/-- **A tick.** The process was within its slice, so it exceeds it by nothing
until the handler decides. -/
theorem Account.charge {below : List Frame} (account : Account life charged frames)
    (isRunning : life.state = .RUNNING) (within : WithinSlice life) :
    Account { life with currentRuntime := int32 (life.currentRuntime + 1) } (charged + 1)
      (.yield :: .trapret :: below) := by
  have nonneg := account.nonneg
  have bounded := account.bounded
  have upper : life.currentRuntime + 1 ≤ max life.maximumExecutiontime min_granularity := by
    unfold WithinSlice at within
    omega
  have exact_sum : int32 (life.currentRuntime + 1) = life.currentRuntime + 1 := by
    unfold min_granularity at upper
    exact int32_of_range (by omega) (by omega)
  rw [exact_sum]
  constructor
  · rintro (runnable | used)
    · exact absurd (isRunning.symm.trans runnable) (by decide)
    · exact absurd (isRunning.symm.trans used) (by decide)
  · intro live
    have before := account.balance live
    push_cast
    omega
  · exact Int.add_nonneg nonneg (by decide)
  · exact bounded
  · exact .inr ⟨⟨below, rfl⟩, upper⟩

end One

/-! ## Every kind of step keeps the accounts -/

section Steps

variable {k k' : Kernel} {queue : List ProcId} {c : CpuId} {p q : ProcId}
  {frames : List Frame}

theorem Accounts.keep (accounts : Accounts k)
    (stack : (Sum.inl q : Thread) ≠ k.thread c → k'.stack (.inl q) = k.stack (.inl q))
    (checked : k.current c = some q → Checked k c)
    (life : lifeOf k'.memory q = lifeOf k.memory q) (charged : k'.charged q = k.charged q) :
    Account (lifeOf k'.memory q) (k'.charged q) (k'.stack (.inl q)) := by
  rw [life, charged]
  by_cases isThread : (Sum.inl q : Thread) = k.thread c
  · have own : k.current c = some q := by
      unfold Kernel.thread at isThread
      split at isThread
      · rename_i own
        cases isThread
        exact own
      · cases isThread
    refine (accounts q).move fun ⟨below, deciding⟩ => checked own q below ?_ own
    rw [← isThread]
    exact deciding
  · rw [stack isThread]
    exact accounts q

theorem Accounts.control (accounts : Accounts k)
    (stack : k'.stack = update k.stack (k.thread c) frames) (checked : Checked k c)
    (lives : ∀ q, lifeOf k'.memory q = lifeOf k.memory q)
    (charged : k'.charged = k.charged) : Accounts k' :=
  fun q => accounts.keep (stack_of_update stack) (fun _ => checked) (lives q) (by rw [charged])

theorem Accounts.write (accounts : Accounts k) (memory : LivesBut k.memory k'.memory p)
    (stack : k'.stack = update k.stack (k.thread c) frames)
    (checked : ∀ q, q ≠ p → k.current c = some q → Checked k c)
    (charged : ∀ q, q ≠ p → k'.charged q = k.charged q)
    (atSlot : Account (lifeOf k'.memory p) (k'.charged p) (k'.stack (.inl p))) :
    Accounts k' := by
  intro q
  by_cases isSlot : q = p
  · rw [isSlot]
    exact atSlot
  · exact accounts.keep (stack_of_update stack) (checked q isSlot) (memory.others q isSlot)
      (charged q isSlot)

theorem Accounts.allocate {own : List Frame} {fields : Proc} (accounts : Accounts k)
    (checked : Checked k c) (memory : k'.memory = (clearLinks k.memory p).setProc p fields)
    (stack : k'.stack = update (update k.stack (.inl p) own)
      (k.thread c) frames)
    (charged : k'.charged = update k.charged p 0)
    (life : lifeOf k'.memory p = ⟨fields.state, 0, 0, 0⟩) : Accounts k' := by
  intro q
  by_cases isSlot : q = p
  · rw [isSlot, life, charged, update_self]
    exact .reset
  · refine accounts.keep (fun notThread => ?_) (fun _ => checked) ?_ ?_
    · rw [stack, update_of_ne notThread, update_of_ne (by simpa using isSlot)]
    · simp [lifeOf, memory, Memory.setProc, clearLinks, isSlot]
    · rw [charged, update_of_ne isSlot]

theorem Effect.accounts (effect : Effect k c k') (books : Books k queue)
    (accounts : Accounts k) : Accounts k' := by
  cases effect with
  | control frames memory stack _ _ charged _ _ _ checked =>
      exact accounts.control stack checked memory.lives charged
  | requeue p rest memory life stack _ _ _ charged _ _ active kind =>
      have live : (lifeOf k.memory p).state ≠ .UNUSED := by
        rcases kind with ⟨own, _⟩ | ⟨_, asleep, _⟩
        · simp [lifeOf, active p own]
        · simp [lifeOf, asleep]
      refine accounts.write memory stack ?_ (fun q _ => by rw [charged]) ?_
      · intro q notSlot onCpu
        rcases kind with ⟨own, _⟩ | ⟨_, _, checked⟩
        · rw [own] at onCpu
          exact absurd (Option.some.inj onCpu).symm notSlot
        · exact checked
      · have written : Account _ _ (k'.stack (.inl p)) := (accounts p).requeue live
        rw [life, charged]
        simpa [lifeOf, Memory.setProc, requeued] using written
  | retire p state rest memory life kind stack own _ _ _ charged _ _ active checked =>
      rw [← thread_of_current own] at stack
      refine accounts.write memory stack (fun _ _ _ => checked) (fun q _ => by rw [charged]) ?_
      rw [life, charged]
      refine (accounts p).setState (.inr (by simp [lifeOf, active p own])) ?_ ?_
      · rcases kind with rfl | ⟨rfl, _⟩ <;> simp
      · rintro ⟨below, deciding⟩
        exact checked p below (by rw [thread_of_current own]; exact deciding) own
  | leave p rest memory before stack own _ _ charged _ =>
      rw [← thread_of_current own] at before stack
      exact accounts.control stack (.of_top before (by simp)) (fun q => by rw [memory]) charged
  | insert p rest inserted before stack _ _ charged =>
      have pending : Frame.insert p ∈ k.stack (k.thread c) := by simp [before]
      exact accounts.control stack (.of_top before (by simp))
        (books.insert_life inserted pending) charged
  | retrieve found retrieved before stack idle _ _ charged =>
      intro q
      rw [stack_of_update stack (by simp), charged]
      rcases books.retrieval_life retrieved q with same | ⟨runnable, same⟩
      · rw [same]
        exact accounts q
      · rw [same]
        exact (accounts q).setSlice runnable (timeSlice_lt _ _ _)
  | start p rest memory life before stack _ _ _ charged runnable _ =>
      refine accounts.write memory stack (fun _ _ _ => .of_top before (by simp))
        (fun q _ => by rw [charged]) ?_
      rw [life, charged]
      refine (accounts p).setState (.inr (by simp [lifeOf, runnable])) (by simp) fun _ => ?_
      exact withinSlice_of_zero ((accounts p).fresh (.inl runnable))
  | allocate p rest memory stack _ _ _ charged _ _ _ checked _ =>
      refine accounts.allocate checked memory stack charged ?_
      simp [lifeOf, memory, Kernel.allocate, Memory.setProc, allocated]
  | abandon p rest memory stack _ _ _ charged _ _ _ checked _ =>
      rw [Kernel.allocate, setProc_setProc] at memory
      refine accounts.allocate checked memory stack charged ?_
      simp [lifeOf, memory, Memory.setProc, allocated, freeproc]
  | birth p rest memory life before stack _ _ _ charged _ =>
      have pending : Frame.forkRunnable p ∈ k.stack (k.thread c) := by simp [before]
      have used := books.used_of_embryo pending (q := p) (by simp [Frame.embryos])
      have zero := (accounts p).fresh (.inr used)
      refine accounts.write memory stack (fun _ _ _ => .of_top before (by simp))
        (fun q _ => by rw [charged]) ?_
      rw [life, charged]
      exact (accounts p).setState (.inr (by simp [lifeOf, used])) (fun _ => zero)
        fun _ => withinSlice_of_zero zero
  | reap p rest memory life stack _ _ _ charged _ _ _ checked isZombie =>
      refine accounts.write memory stack (fun _ _ _ => checked) (fun q _ => by rw [charged]) ?_
      rw [life, charged]
      refine (accounts p).setState (.inl rfl) (by simp) ?_
      rintro ⟨below, deciding⟩
      cases books.dead p (.inr isZombie) .yield (by simp [deciding])
  | charge p rest memory life before stack own _ _ charged active =>
      have within : WithinSlice (lifeOf k.memory p) := by
        refine (accounts p).slice.elim id ?_
        rintro ⟨⟨below, deciding⟩, _⟩
        rw [before] at deciding
        cases deciding
      have top : k'.stack (.inl p) = .yield :: .trapret :: rest := by
        rw [stack, update_self]
      rw [← thread_of_current own] at before stack
      refine accounts.write memory stack (fun _ _ _ => .of_top before (by simp))
        (fun q notSlot => by rw [charged, update_of_ne notSlot]) ?_
      rw [life, charged, top, update_self]
      exact (accounts p).charge (active p own) within
  | userinit p rest memory before stack _ _ _ charged _ _ =>
      rw [Kernel.allocate, setProc_setProc] at memory
      refine accounts.allocate (.of_top before (by simp)) memory stack charged ?_
      simp [lifeOf, memory, Memory.setProc, allocated]

end Steps

theorem Accounts.boot : Accounts boot := fun _ => .reset

theorem Reachable.accounts {k : Kernel} (reachable : Reachable k) : Accounts k := by
  induction reachable with
  | boot => exact .boot
  | step reachable stepped ih =>
      obtain ⟨queue, books, occupancy⟩ := reachable.invariant
      exact (books.effect occupancy stepped).accounts books ih

/-- **CPU accounting.** In every reachable state the runtimes of a live process add
up to the ticks charged to it since `allocproc`; a queued process has no
`currentRuntime`; and a process is within its slice unless a trap handler has yet
to make its `yield`, so that it is whenever the handler of a tick is done. -/
theorem cpu_accounting {k : Kernel} (reachable : Reachable k) (p : ProcId) :
    ((k.memory.proc p).state ≠ .UNUSED →
      ((k.memory.proc p).virtualRuntime + (k.memory.proc p).currentRuntime) % 2 ^ 32 =
        (k.charged p : Int) % 2 ^ 32) ∧
      (p ∈ k.memory.inorder → (k.memory.proc p).currentRuntime = 0) ∧
      (¬ Deciding (k.stack (.inl p)) → (k.memory.proc p).currentRuntime <
        max (k.memory.proc p).maximumExecutiontime min_granularity) := by
  have account := reachable.accounts p
  obtain ⟨queue, books, _⟩ := reachable.invariant
  refine ⟨account.balance, fun queued => ?_, fun decided => ?_⟩
  · rw [books.holds.inorder_eq] at queued
    exact account.fresh (.inl (books.runnable_of_mem queued))
  · exact account.slice.elim id fun deciding => absurd deciding.1 decided

/-- Ticks that arrive while the first process is in user mode on CPU 1. -/
def tickSchedule (ticks : Nat) : List (CpuId × Choice) :=
  (List.replicate ticks ((⟨1, one_lt_NCPU⟩, .request .timer) ::
    List.replicate 3 (⟨1, one_lt_NCPU⟩, .resume true))).flatten

theorem cpu_accounting_ticks : ∃ k, Reachable k ∧ k.charged (slot 0) = 3 ∧
    ((k.memory.proc (slot 0)).virtualRuntime +
      (k.memory.proc (slot 0)).currentRuntime) % 2 ^ 32 = 3 ∧
    (k.memory.proc (slot 0)).currentRuntime <
      max (k.memory.proc (slot 0)).maximumExecutiontime min_granularity := by
  obtain ⟨k, reachable, charged, live, idle⟩ := Reachable.exists_of_follow
    (forkSchedule [5] ++ tickSchedule 3)
    (fun k => k.charged (slot 0) = 3 ∧ (k.memory.proc (slot 0)).state ≠ .UNUSED ∧
      k.stack (.inl (slot 0)) = []) (by decide +kernel)
  obtain ⟨balance, _, within⟩ := cpu_accounting reachable (slot 0)
  refine ⟨k, reachable, charged, ?_, within ?_⟩
  · rw [balance live, charged]
    rfl
  · rw [idle]
    rintro ⟨_, impossible⟩
    cases impossible

end Xv6.Sched
