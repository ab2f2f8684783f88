import Xv6.Sched.Effect
import Xv6.Cfs.Runs

/-!
Contract: the tree and the pending frames account for every runnable process.

Owns: the books of the scheduler (`Books`), which say for every process that the
tree and the frames together account for it exactly once if it is `RUNNABLE` and
not at all otherwise, and that every kind of step keeps the books.
-/

namespace Xv6.Sched

open Xv6.Kernel
open Xv6.Cfs
open Xv6.Threads
open Function

/-! ## The books -/

/-- How often a process in this state is accounted for. -/
def owed (state : ProcState) : Nat := if state = .RUNNABLE then 1 else 0

/-- How many calls of `fork` have a process in this state in hand. -/
def nascent (state : ProcState) : Nat := if state = .USED then 1 else 0

/-- Nothing of the process is left to run. -/
def Dead (state : ProcState) : Prop := state = .UNUSED ∨ state = .ZOMBIE

structure Books (k : Kernel) (queue : List ProcId) : Prop where
  holds : k.memory.Holds queue
  leaf : ∀ q ∉ queue, (k.memory.rb.node q).left = none ∧ (k.memory.rb.node q).right = none
  tokens : ∀ q, queue.count q + countAll (Frame.tokens q) k.stack =
    owed (k.memory.proc q).state
  embryos : ∀ q, countAll (Frame.embryos q) k.stack = nascent (k.memory.proc q).state
  /-- Only scheduler loops have retrieved processes in hand. -/
  loops : ∀ p q, countIn (Frame.retrieved q) (k.stack (.inl p)) = 0
  dead : ∀ q, Dead (k.memory.proc q).state → ∀ frame ∈ k.stack (.inl q), frame = .sched

section Reading

variable {k : Kernel} {queue : List ProcId} {q : ProcId} {t : Thread} {frame : Frame}

theorem owed_le_one (state : ProcState) : owed state ≤ 1 := by
  unfold owed
  split <;> decide

theorem runnable_of_owed_pos {state : ProcState} (positive : 0 < owed state) :
    state = .RUNNABLE := by
  by_contra other
  rw [owed, if_neg other] at positive
  exact absurd positive (Nat.lt_irrefl 0)

theorem Books.runnable_of_mem (books : Books k queue) (member : q ∈ queue) :
    (k.memory.proc q).state = .RUNNABLE := by
  have counted := List.count_pos_iff.mpr member
  have balance := books.tokens q
  exact runnable_of_owed_pos (by omega)

theorem Books.not_mem (books : Books k queue) (other : (k.memory.proc q).state ≠ .RUNNABLE) :
    q ∉ queue :=
  fun member => other (books.runnable_of_mem member)

/-- A process in the hands of some frame is runnable, and not in the tree. -/
theorem Books.of_token (books : Books k queue) (member : frame ∈ k.stack t)
    (carried : 0 < frame.tokens q) :
    (k.memory.proc q).state = .RUNNABLE ∧ q ∉ queue := by
  have balance := books.tokens q
  have inStack := carries_le_countIn (Frame.tokens q) member
  have inAll := countIn_le_countAll (Frame.tokens q) k.stack t
  have bound := owed_le_one (k.memory.proc q).state
  refine ⟨runnable_of_owed_pos (by omega), fun queued => ?_⟩
  have counted := List.count_pos_iff.mpr queued
  omega

theorem Books.used_of_embryo (books : Books k queue) (member : frame ∈ k.stack t)
    (carried : 0 < frame.embryos q) :
    (k.memory.proc q).state = .USED := by
  have balance := books.embryos q
  have inStack := carries_le_countIn (Frame.embryos q) member
  have inAll := countIn_le_countAll (Frame.embryos q) k.stack t
  by_contra other
  rw [nascent, if_neg other] at balance
  omega

end Reading

/-! ## Moving one thread -/

section Moving

variable {k k' : Kernel} {queue queue' : List ProcId} {t : Thread} {p q : ProcId} {c : CpuId}
  {frames removed added rest : List Frame} {before after : Memory}

/-- A step that moves thread `t` keeps the books if what `t` and the queue carry
changes with what the states owe. -/
theorem Books.move (books : Books k queue) (holds : k'.memory.Holds queue')
    (leaf : ∀ q ∉ queue',
      (k'.memory.rb.node q).left = none ∧ (k'.memory.rb.node q).right = none)
    (elsewhere : ∀ u, u ≠ t → SameLoad (k.stack u) (k'.stack u))
    (tokens : ∀ q, queue'.count q + countIn (Frame.tokens q) (k'.stack t) +
        owed (k.memory.proc q).state =
      queue.count q + countIn (Frame.tokens q) (k.stack t) + owed (k'.memory.proc q).state)
    (embryos : ∀ q, countIn (Frame.embryos q) (k'.stack t) +
        nascent (k.memory.proc q).state =
      countIn (Frame.embryos q) (k.stack t) + nascent (k'.memory.proc q).state)
    (loops : ∀ p, t = .inl p → ∀ q, countIn (Frame.retrieved q) (k'.stack t) = 0)
    (dead : ∀ q, Dead (k'.memory.proc q).state →
      ∀ frame ∈ k'.stack (.inl q), frame = .sched) : Books k' queue' where
  holds := holds
  leaf := leaf
  tokens := by
    intro q
    have before := books.tokens q
    have balance := tokens q
    rw [countAll_eq (Frame.tokens q) _ t] at before ⊢
    have rest := countElse_congr fun u different => (elsewhere u different).tokens q
    omega
  embryos := by
    intro q
    have before := books.embryos q
    have balance := embryos q
    rw [countAll_eq (Frame.embryos q) _ t] at before ⊢
    have rest := countElse_congr fun u different => (elsewhere u different).embryos q
    omega
  loops := by
    intro p q
    by_cases moved : t = .inl p
    · rw [← moved]
      exact loops p moved q
    · rw [(elsewhere _ (Ne.symm moved)).retrieved q]
      exact books.loops p q
  dead := dead

theorem sameLoad_of_update (stack : k'.stack = update k.stack t frames)
    (u : Thread) (different : u ≠ t) : SameLoad (k.stack u) (k'.stack u) := by
  rw [stack, update_of_ne different]
  exact .refl _

theorem LivesBut.state_eq (lives : LivesBut before after p) (different : q ≠ p) :
    (after.proc q).state = (before.proc q).state :=
  congrArg Life.state (lives.others q different)

theorem SameLives.state_eq (lives : SameLives before after) (q : ProcId) :
    (after.proc q).state = (before.proc q).state :=
  congrArg Life.state (lives.lives q)

theorem LivesBut.holds (lives : LivesBut before after p) (holds : before.Holds queue)
    (unqueued : p ∉ queue) : after.Holds queue := by
  refine holds.congr (by rw [lives.rb]) (fun q _ => by rw [lives.rb]) ?_ lives.count
    lives.minimum
  intro q member
  have different : q ≠ p := fun isSlot => unqueued (isSlot ▸ member)
  exact congrArg Life.virtualRuntime (lives.others q different)

/-- The executing process is `RUNNING`, so the stacks of the others are kept. -/
theorem Active.thread_ne (active : Active k c) (other : (k.memory.proc q).state ≠ .RUNNING) :
    (Sum.inl q : Thread) ≠ k.thread c := by
  intro same
  unfold Kernel.thread at same
  split at same
  · rename_i own
    cases same
    exact other (active q own)
  · cases same

theorem Dead.not_running {state : ProcState} (dead : Dead state) : state ≠ .RUNNING := by
  rcases dead with rfl | rfl <;> decide

theorem Books.dead_kept (books : Books k queue) (active : Active k c)
    (stack : k'.stack = update k.stack (k.thread c) frames) (dead : Dead (k.memory.proc q).state) :
    ∀ frame ∈ k'.stack (.inl q), frame = .sched := by
  rw [stack, update_of_ne (active.thread_ne dead.not_running)]
  exact books.dead q dead

/-- The step replaces the frames `removed` by `added` while `p` goes from one state
to another, and the books balance. -/
structure Exchange (p : ProcId) (before after : ProcState) (removed added : List Frame) :
    Prop where
  tokens : ∀ q, countIn (Frame.tokens q) added + (if q = p then owed before else 0) =
    countIn (Frame.tokens q) removed + if q = p then owed after else 0
  embryos : ∀ q, countIn (Frame.embryos q) added + (if q = p then nascent before else 0) =
    countIn (Frame.embryos q) removed + if q = p then nascent after else 0
  retrieved : ∀ q,
    countIn (Frame.retrieved q) added ≤ countIn (Frame.retrieved q) removed

/-- An exchange in the executing thread keeps the books of all processes. -/
theorem Books.exchange (books : Books k queue) (holds : k'.memory.Holds queue)
    (leaf : ∀ q ∉ queue,
      (k'.memory.rb.node q).left = none ∧ (k'.memory.rb.node q).right = none)
    (states : ∀ q, q ≠ p → (k'.memory.proc q).state = (k.memory.proc q).state)
    (elsewhere : ∀ u, u ≠ t → SameLoad (k.stack u) (k'.stack u))
    (top : k'.stack t = added ++ rest) (load : SameLoad (k.stack t) (removed ++ rest))
    (balance : Exchange p (k.memory.proc p).state (k'.memory.proc p).state removed added)
    (dead : ∀ q, Dead (k'.memory.proc q).state →
      ∀ frame ∈ k'.stack (.inl q), frame = .sched) : Books k' queue := by
  refine books.move holds leaf elsewhere ?_ ?_ ?_ dead
  · intro q
    have exchanged := balance.tokens q
    rw [top, ← load.tokens q, countIn_append, countIn_append]
    by_cases isSlot : q = p
    · rw [if_pos isSlot, if_pos isSlot] at exchanged
      rw [isSlot] at exchanged ⊢
      omega
    · rw [if_neg isSlot, if_neg isSlot] at exchanged
      rw [states q isSlot]
      omega
  · intro q
    have exchanged := balance.embryos q
    rw [top, ← load.embryos q, countIn_append, countIn_append]
    by_cases isSlot : q = p
    · rw [if_pos isSlot, if_pos isSlot] at exchanged
      rw [isSlot] at exchanged ⊢
      omega
    · rw [if_neg isSlot, if_neg isSlot] at exchanged
      rw [states q isSlot]
      omega
  · intro r isThread q
    have nothing := books.loops r q
    have exchanged := balance.retrieved q
    rw [← isThread, ← load.retrieved q, countIn_append] at nothing
    rw [top, countIn_append]
    omega

theorem Books.write (books : Books k queue) (active : Active k c)
    (memory : LivesBut k.memory k'.memory p) (unqueued : p ∉ queue)
    (removed added : List Frame)
    (stack : k'.stack = update k.stack (k.thread c) (added ++ rest))
    (load : SameLoad (k.stack (k.thread c)) (removed ++ rest))
    (balance : Exchange p (k.memory.proc p).state (k'.memory.proc p).state removed added)
    (spent : Dead (k'.memory.proc p).state → ∀ frame ∈ k'.stack (.inl p), frame = .sched) :
    Books k' queue := by
  refine books.exchange (memory.holds books.holds unqueued) ?_
    (fun q different => memory.state_eq different) (sameLoad_of_update stack)
    (by rw [stack, update_self]) load balance ?_
  · intro q missing
    rw [memory.rb]
    exact books.leaf q missing
  · intro q dead
    by_cases isSlot : q = p
    · subst isSlot
      exact spent dead
    · rw [memory.state_eq isSlot] at dead
      exact books.dead_kept active stack dead

end Moving

/-! ## Every kind of step keeps the books -/

section Steps

variable {k k' : Kernel} {queue : List ProcId} {p : ProcId} {c : CpuId}
  {frames own removed added rest : List Frame} {fields : Proc} {t : Thread} {memory : Memory}
  {found : Option ProcId} {before : ProcState}

theorem clearLinks_node (memory : Memory) (q : ProcId) (different : q ≠ p) :
    (clearLinks memory p).rb.node q = memory.rb.node q := by
  simp [clearLinks, different]

theorem clearLinks_leaf (memory : Memory) (p : ProcId) :
    ((clearLinks memory p).rb.node p).left = none ∧
      ((clearLinks memory p).rb.node p).right = none := by
  simp [clearLinks]

theorem sameLoad_of_sched {old new : List Frame} (spent : ∀ frame ∈ old, frame = .sched)
    (light : new.all Frame.light = true) : SameLoad old new := by
  have oldLight : old.all Frame.light = true :=
    List.all_eq_true.mpr fun frame member => by rw [spent frame member]; rfl
  have swapped := SameLoad.swap old new [] oldLight light
  rwa [List.append_nil, List.append_nil] at swapped

/-- `allocproc` on a free slot, whatever becomes of it within the same step. -/
theorem Books.reset (books : Books k queue) (active : Active k c)
    (unused : (k.memory.proc p).state = .UNUSED)
    (memory : k'.memory = (clearLinks k.memory p).setProc p fields)
    (removed added : List Frame)
    (stack : k'.stack = update (update k.stack (.inl p) own)
      (k.thread c) (added ++ rest))
    (load : SameLoad (k.stack (k.thread c)) (removed ++ rest))
    (balance : Exchange p .UNUSED fields.state removed added)
    (light : own.all Frame.light = true) (spent : Dead fields.state → own = []) :
    Books k' queue := by
  have unqueued : p ∉ queue := books.not_mem (by simp [unused])
  have notThread : (Sum.inl p : Thread) ≠ k.thread c := active.thread_ne (by simp [unused])
  have off : ∀ q, q ≠ p → (k'.memory.proc q) = k.memory.proc q := by
    intro q different
    simp [memory, Memory.setProc, clearLinks, different]
  have atSlot : k'.memory.proc p = fields := by simp [memory, Memory.setProc]
  have slotStack : k'.stack (.inl p) = own := by
    rw [stack, update_of_ne notThread, update_self]
  have nodes : k'.memory.rb = (clearLinks k.memory p).rb := by rw [memory]; rfl
  have kept : ∀ u, u ≠ k.thread c → u ≠ .inl p → k'.stack u = k.stack u := by
    intro u notThread notSlot
    rw [stack, update_of_ne notThread, update_of_ne notSlot]
  rw [← unused, ← atSlot] at balance
  refine books.exchange ?_ ?_ (fun q different => by rw [off q different]) ?_
    (by rw [stack, update_self]) load balance ?_
  · refine books.holds.congr (by rw [nodes]; rfl) ?_ ?_ (by rw [memory]; rfl)
      (by rw [memory]; rfl)
    · intro q member
      rw [nodes]
      exact clearLinks_node _ _ fun isSlot => unqueued (isSlot ▸ member)
    · intro q member
      rw [Memory.virtualRuntime, off q fun isSlot => unqueued (isSlot ▸ member)]
      rfl
  · intro q missing
    rw [nodes]
    by_cases isSlot : q = p
    · rw [isSlot]
      exact clearLinks_leaf _ _
    · rw [clearLinks_node _ _ isSlot]
      exact books.leaf q missing
  · intro u notThread
    by_cases isSlot : u = .inl p
    · rw [isSlot, slotStack]
      exact sameLoad_of_sched (books.dead p (.inl unused)) light
    · rw [kept u notThread isSlot]
      exact .refl _
  · intro q dead
    by_cases isSlot : q = p
    · subst isSlot
      rw [atSlot] at dead
      rw [slotStack, spent dead]
      simp
    · rw [off q isSlot] at dead
      rw [kept _ (active.thread_ne dead.not_running) (by simpa using isSlot)]
      exact books.dead q dead

/-- A pending insertion finds a process that is runnable, not in the tree and
without children. -/
theorem Books.insertion (books : Books k queue) (pending : Frame.insert p ∈ k.stack t) :
    (k.memory.proc p).state = .RUNNABLE ∧ p ∉ queue ∧
      (k.memory.rb.node p).left = none ∧ (k.memory.rb.node p).right = none := by
  obtain ⟨runnable, missing⟩ := books.of_token pending (q := p) (by simp [Frame.tokens])
  exact ⟨runnable, missing, books.leaf p missing⟩

/-- The processes of the queue are runnable, so its first one is retrieved. -/
theorem Books.retrieval (books : Books k queue)
    (retrieved : retrieveProcess k.memory = some (memory, found)) :
    (found = none ∧ queue = [] ∧ memory = k.memory) ∨
      ∃ q rest, found = some q ∧ queue = q :: rest ∧ memory.Holds rest ∧
        memory.proc = update k.memory.proc q { k.memory.proc q with
          maximumExecutiontime := timeSlice (nextPeriod k.memory)
            (k.memory.proc q).weightValue k.memory.rbTreeWeight } ∧
        ∀ r ∉ rest, (memory.rb.node r).left = none ∧ (memory.rb.node r).right = none := by
  cases queue with
  | nil =>
      rw [retrieveProcess_empty books.holds] at retrieved
      cases retrieved
      exact .inl ⟨rfl, rfl, rfl⟩
  | cons q rest =>
      obtain ⟨after, returned, holds, procs, _, _, kept, cleared⟩ :=
        retrieveProcess_spec books.holds (books.runnable_of_mem List.mem_cons_self)
      rw [returned] at retrieved
      cases retrieved
      refine .inr ⟨q, rest, rfl, rfl, holds, procs, ?_⟩
      intro r missing
      by_cases isFirst : r = q
      · rw [isFirst]
        exact cleared
      · have outside : r ∉ q :: rest := by simp [isFirst, missing]
        rw [kept r outside]
        exact books.leaf r outside

theorem Books.retrieval_life (books : Books k queue)
    (retrieved : retrieveProcess k.memory = some (memory, found)) (q : ProcId) :
    lifeOf memory q = lifeOf k.memory q ∨ (k.memory.proc q).state = .RUNNABLE ∧
      lifeOf memory q = { lifeOf k.memory q with
        maximumExecutiontime := timeSlice (nextPeriod k.memory)
          (k.memory.proc q).weightValue k.memory.rbTreeWeight } := by
  rcases books.retrieval retrieved with ⟨_, _, same⟩ | ⟨p, rest, _, isQueue, _, procs, _⟩
  · rw [same]
    exact .inl rfl
  · by_cases isFirst : q = p
    · subst isFirst
      refine .inr ⟨books.runnable_of_mem (by simp [isQueue]), ?_⟩
      simp [lifeOf, procs]
    · exact .inl (by simp [lifeOf, procs, isFirst])

theorem Books.retrieval_state (books : Books k queue)
    (retrieved : retrieveProcess k.memory = some (memory, found)) (q : ProcId) :
    (memory.proc q).state = (k.memory.proc q).state := by
  rcases books.retrieval_life retrieved q with same | ⟨_, same⟩
  · exact congrArg Life.state same
  · exact congrArg Life.state same

theorem Books.control (books : Books k queue) (active : Active k c)
    (memory : SameLives k.memory k'.memory)
    (stack : k'.stack = update k.stack (k.thread c) frames)
    (load : SameLoad (k.stack (k.thread c)) frames) : Books k' queue := by
  have top : k'.stack (k.thread c) = frames := by rw [stack, update_self]
  refine books.move ?_ ?_ (sameLoad_of_update stack) ?_ ?_ ?_ ?_
  · refine books.holds.congr (by rw [memory.rb]) (fun q _ => by rw [memory.rb]) ?_
      memory.count memory.minimum
    exact fun q _ => congrArg Life.virtualRuntime (memory.lives q)
  · rw [memory.rb]
    exact books.leaf
  · intro q
    rw [top, load.tokens q, memory.state_eq q]
  · intro q
    rw [top, load.embryos q, memory.state_eq q]
  · intro r isThread q
    rw [top, load.retrieved q, isThread]
    exact books.loops r q
  · intro q dead
    rw [memory.state_eq q] at dead
    exact books.dead_kept active stack dead

theorem Books.insert_life (books : Books k queue)
    (inserted : insertProcess k.memory p = some memory) (pending : Frame.insert p ∈ k.stack t)
    (q : ProcId) :
    lifeOf memory q = lifeOf k.memory q := by
  obtain ⟨_, missing, leaf⟩ := books.insertion pending
  obtain ⟨memory', returned, _, procs, _⟩ := insertProcess_spec books.holds missing leaf
  rw [returned] at inserted
  cases inserted
  by_cases isSlot : q = p
  · simp [lifeOf, procs, isSlot]
  · simp [lifeOf, procs, isSlot]

theorem Books.insert_state (books : Books k queue)
    (inserted : insertProcess k.memory p = some memory) (pending : Frame.insert p ∈ k.stack t)
    (q : ProcId) :
    (memory.proc q).state = (k.memory.proc q).state :=
  congrArg Life.state (books.insert_life inserted pending q)

theorem Books.insert (books : Books k queue)
    (inserted : insertProcess k.memory p = some k'.memory)
    (before : k.stack (k.thread c) = .insert p :: frames)
    (stack : k'.stack = update k.stack (k.thread c) frames) :
    Books k' (Queue.enqueue k.memory.virtualRuntime p queue) := by
  have pending : Frame.insert p ∈ k.stack (k.thread c) := by simp [before]
  have top : k'.stack (k.thread c) = frames := by rw [stack, update_self]
  have states := books.insert_state inserted pending
  obtain ⟨_, missing, leaf⟩ := books.insertion pending
  obtain ⟨memory, returned, holds, _, _, _, kept⟩ :=
    insertProcess_spec books.holds missing leaf
  rw [returned] at inserted
  cases inserted
  refine books.move holds ?_ (sameLoad_of_update stack) ?_ ?_ ?_ ?_
  · intro q outside
    have notBefore : q ∉ p :: queue := fun member =>
      outside ((Queue.enqueue_perm _ _ _).mem_iff.mpr member)
    rw [kept q notBefore]
    exact books.leaf q fun member => notBefore (List.mem_cons_of_mem _ member)
  · intro q
    rw [top, before, states q, (Queue.enqueue_perm _ _ _).count_eq, List.count_cons,
      countIn_cons]
    simp only [Frame.tokens, beq_iff_eq]
    omega
  · intro q
    rw [top, before, states q, countIn_cons]
    simp [Frame.embryos]
  · intro r isThread q
    have nothing := books.loops r q
    rw [← isThread, before, countIn_cons] at nothing
    rw [top]
    omega
  · intro q dead
    rw [states q] at dead
    by_cases isThread : (Sum.inl q : Thread) = k.thread c
    · -- A dead process has no insertion to run.
      have impossible := books.dead q dead (.insert p) (by rw [isThread]; exact pending)
      cases impossible
    · rw [stack, update_of_ne isThread]
      exact books.dead q dead

theorem Books.retrieve (books : Books k queue)
    (retrieved : retrieveProcess k.memory = some (k'.memory, found))
    (before : k.stack (.inr c) = [])
    (stack : k'.stack = update k.stack (.inr c) (found.map .run).toList) :
    ∃ queue', Books k' queue' := by
  have top : k'.stack (.inr c) = (found.map Frame.run).toList := by
    rw [stack, update_self]
  have processes : ∀ q, k'.stack (.inl q) = k.stack (.inl q) := by
    intro q
    rw [stack, update_of_ne (by simp)]
  rcases books.retrieval retrieved with
    ⟨isNone, _, same⟩ | ⟨p, rest, isFound, isQueue, holds, _, leaf⟩
  · refine ⟨queue, books.move (t := .inr c) (same ▸ books.holds) (same ▸ books.leaf)
      (sameLoad_of_update stack) ?_ ?_ ?_ ?_⟩
    · intro q
      rw [top, before, isNone, same]
      rfl
    · intro q
      rw [top, before, isNone, same]
      rfl
    · intro r isThread
      cases isThread
    · intro q dead
      rw [processes q]
      exact books.dead q (same ▸ dead)
  · have states := books.retrieval_state retrieved
    refine ⟨rest, books.move (t := .inr c) holds leaf (sameLoad_of_update stack) ?_ ?_ ?_ ?_⟩
    · intro q
      rw [top, before, isFound, isQueue, states q, List.count_cons]
      simp only [Option.map_some, Option.toList_some, countIn_cons, countIn_nil, Frame.tokens,
        beq_iff_eq]
      omega
    · intro q
      rw [top, before, isFound, states q]
      simp [Frame.embryos]
    · intro r isThread
      cases isThread
    · intro q dead
      rw [states q] at dead
      rw [processes q]
      exact books.dead q dead

theorem setProc_setProc (memory : Memory) (first : Proc) :
    (memory.setProc p first).setProc p fields = memory.setProc p fields := by
  simp [Memory.setProc]

/-- Exchanges of light frames between states that are accounted for alike. -/
theorem Exchange.light {after : ProcState} (p : ProcId) (removed added : List Frame)
    (removedLight : removed.all Frame.light = true) (addedLight : added.all Frame.light = true)
    (owes : owed before = owed after) (hands : nascent before = nascent after) :
    Exchange p before after removed added := by
  constructor
  · intro q
    rw [(countIn_of_light removedLight q).1, (countIn_of_light addedLight q).1, owes]
  · intro q
    rw [(countIn_of_light removedLight q).2.2, (countIn_of_light addedLight q).2.2, hands]
  · intro q
    rw [(countIn_of_light addedLight q).2.1]
    exact Nat.zero_le _

/-- A process becomes runnable and somebody is about to insert it. -/
theorem Exchange.requeue (p : ProcId) (known : before = .RUNNING ∨ before = .SLEEPING) :
    Exchange p before .RUNNABLE [] [.insert p] := by
  rcases known with rfl | rfl <;> constructor <;> intro q <;> by_cases isSlot : p = q <;>
    simp [Frame.tokens, Frame.embryos, Frame.retrieved, owed, nascent, isSlot, eq_comm]

theorem Exchange.birth (p : ProcId) :
    Exchange p .USED .RUNNABLE [.forkRunnable p] [.insert p] := by
  constructor <;> intro q <;> by_cases isSlot : p = q <;>
    simp [Frame.tokens, Frame.embryos, Frame.retrieved, owed, nascent, isSlot, eq_comm]

theorem Exchange.start (p : ProcId) :
    Exchange p .RUNNABLE .RUNNING [.run p] [.switchedBack p] := by
  constructor <;> intro q <;> by_cases isSlot : p = q <;>
    simp [Frame.tokens, Frame.embryos, Frame.retrieved, owed, nascent, isSlot, eq_comm]

theorem Exchange.allocate (p : ProcId) :
    Exchange p .UNUSED .USED [] [.forkParent p, .forkRunnable p] := by
  constructor <;> intro q <;> by_cases isSlot : p = q <;>
    simp [Frame.tokens, Frame.embryos, Frame.retrieved, owed, nascent, isSlot, eq_comm]

theorem Exchange.userinit (p : ProcId) :
    Exchange p .UNUSED .RUNNABLE [.userinit] [.insert p, .release p] := by
  constructor <;> intro q <;> by_cases isSlot : p = q <;>
    simp [Frame.tokens, Frame.embryos, Frame.retrieved, owed, nascent, isSlot, eq_comm]

theorem not_dead {state : ProcState} (notUnused : state ≠ .UNUSED)
    (notZombie : state ≠ .ZOMBIE) : ¬ Dead state := by
  rintro (isUnused | isZombie)
  · exact notUnused isUnused
  · exact notZombie isZombie

theorem Effect.books (effect : Effect k c k') (books : Books k queue) :
    ∃ queue', Books k' queue' := by
  cases effect with
  | control frames memory stack _ _ _ load _ active _ =>
      exact ⟨queue, books.control active memory stack load⟩
  | insert p rest inserted before stack _ _ _ => exact ⟨_, books.insert inserted before stack⟩
  | retrieve found retrieved before stack _ _ _ _ =>
      exact books.retrieve retrieved before stack
  | requeue p rest memory life stack _ _ _ _ load _ active kind =>
      have after : (k'.memory.proc p).state = .RUNNABLE := by
        simpa [lifeOf, Memory.setProc, requeued] using congrArg Life.state life
      have known : (k.memory.proc p).state = .RUNNING ∨ (k.memory.proc p).state = .SLEEPING :=
        kind.imp (fun own => active p own.1) fun asleep => asleep.2.1
      have unqueued : p ∉ queue := books.not_mem (by rcases known with h | h <;> simp [h])
      refine ⟨queue, books.write active memory unqueued [] [.insert p] stack load ?_ ?_⟩
      · rw [after]
        exact .requeue p known
      · intro dead
        exact absurd (after ▸ dead) (not_dead (by simp) (by simp))
  | retire p state rest memory life kind stack own _ _ _ _ load _ active _ =>
      have after : (k'.memory.proc p).state = state := congrArg Life.state life
      have unqueued : p ∉ queue := books.not_mem (by simp [active p own])
      rw [← thread_of_current own] at stack load
      refine ⟨queue, books.write active memory unqueued [] [.sched] stack load ?_ ?_⟩
      · rw [after, active p own]
        rcases kind with rfl | ⟨rfl, _⟩ <;> exact .light p _ _ rfl rfl rfl rfl
      · intro dead frame member
        rw [stack, thread_of_current own, update_self] at member
        rcases kind with isSleeping | ⟨_, nothingBelow⟩
        · rw [after, isSleeping] at dead
          exact absurd dead (not_dead (by simp) (by simp))
        · simpa [nothingBelow] using member
  | leave p rest memory before stack own _ _ _ _ =>
      refine ⟨queue, books.exchange (p := p) (t := .inl p) (memory ▸ books.holds)
        (memory ▸ books.leaf) (fun q _ => by rw [memory]) (sameLoad_of_update stack)
        (by rw [stack, update_self]; exact (List.nil_append rest).symm)
        (by rw [before]; exact .refl _) (.light p [.sched] [] rfl rfl ?_ ?_) ?_⟩
      · rw [memory]
      · rw [memory]
      · intro q dead frame member
        rw [memory] at dead
        refine books.dead q dead frame ?_
        by_cases isSlot : q = p
        · rw [isSlot, stack, update_self] at member
          rw [isSlot, before]
          exact List.mem_cons_of_mem _ member
        · rwa [stack, update_of_ne (by simpa using isSlot)] at member
  | start p rest memory life before stack _ _ _ _ runnable active =>
      have after : (k'.memory.proc p).state = .RUNNING := congrArg Life.state life
      have pending : Frame.run p ∈ k.stack (k.thread c) := by simp [before]
      have unqueued := (books.of_token pending (q := p) (by simp [Frame.tokens])).2
      refine ⟨queue, books.write active memory unqueued [.run p] [.switchedBack p] stack
        (by rw [before]; exact .refl _) ?_ ?_⟩
      · rw [after, runnable]
        exact .start p
      · intro dead
        exact absurd (after ▸ dead) (not_dead (by simp) (by simp))
  | allocate p rest memory stack _ _ _ _ load _ active _ unused =>
      refine ⟨queue, books.reset active unused memory [] [.forkParent p, .forkRunnable p] stack
        load (.allocate p) rfl fun dead => ?_⟩
      exact absurd dead (not_dead (by simp [allocated]) (by simp [allocated]))
  | abandon p rest memory stack _ _ _ _ load _ active _ unused =>
      rw [Kernel.allocate, setProc_setProc] at memory
      exact ⟨queue, books.reset active unused memory [] [] stack load
        (.light p _ _ rfl rfl rfl rfl) rfl fun _ => rfl⟩
  | birth p rest memory life before stack _ _ _ _ active =>
      have after : (k'.memory.proc p).state = .RUNNABLE := congrArg Life.state life
      have pending : Frame.forkRunnable p ∈ k.stack (k.thread c) := by simp [before]
      have used := books.used_of_embryo pending (q := p) (by simp [Frame.embryos])
      have unqueued : p ∉ queue := books.not_mem (by simp [used])
      refine ⟨queue, books.write active memory unqueued [.forkRunnable p] [.insert p] stack
        (by rw [before]; exact .refl _) ?_ ?_⟩
      · rw [after, used]
        exact .birth p
      · intro dead
        exact absurd (after ▸ dead) (not_dead (by simp) (by simp))
  | reap p rest memory life stack _ _ _ _ load _ active _ isZombie =>
      have after : (k'.memory.proc p).state = .UNUSED := congrArg Life.state life
      have unqueued : p ∉ queue := books.not_mem (by simp [isZombie])
      refine ⟨queue, books.write active memory unqueued [] [] stack load ?_ ?_⟩
      · rw [after, isZombie]
        exact .light p _ _ rfl rfl rfl rfl
      · intro _
        exact books.dead_kept active stack (.inr isZombie)
  | charge p rest memory life before stack own _ _ _ active =>
      have after : (k'.memory.proc p).state = .RUNNING :=
        (congrArg Life.state life).trans (active p own)
      have unqueued : p ∉ queue := books.not_mem (by simp [active p own])
      rw [← thread_of_current own] at before stack
      refine ⟨queue, books.write active memory unqueued [.usertrap] [.yield, .trapret] stack
        (by rw [before]; exact .refl _) ?_ ?_⟩
      · rw [after, active p own]
        exact .light p _ _ rfl rfl rfl rfl
      · intro dead
        exact absurd (after ▸ dead) (not_dead (by simp) (by simp))
  | userinit p rest memory before stack _ _ _ _ active unused =>
      rw [Kernel.allocate, setProc_setProc] at memory
      refine ⟨queue, books.reset active unused memory [.userinit] [.insert p, .release p] stack
        (by rw [before]; exact .refl _) (.userinit p) rfl fun dead => ?_⟩
      exact absurd dead (not_dead (by simp) (by simp))

end Steps

end Xv6.Sched
