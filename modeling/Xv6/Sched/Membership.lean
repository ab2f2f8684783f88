import Xv6.Sched.Books

/-!
Contract: who is in the run queue and who is on a CPU, over every interleaving.

Owns: that every kind of step keeps the occupancy of the CPUs, the induction over
runs of the machine, and what follows in every reachable state.
-/

namespace Xv6.Sched

open Xv6.Kernel
open Xv6.Cfs
open Xv6.Threads
open Function

/-! ## Occupancy -/

section Occupied

variable {k k' : Kernel} {queue : List ProcId} {p q : ProcId} {c c' : CpuId}
  {frames : List Frame} {t : Thread}

theorem Occupancy.thread_ne (occupancy : Occupancy k) (different : c' ≠ c)
    (onOther : k.current c' = some q) : (Sum.inl q : Thread) ≠ k.thread c := by
  intro same
  unfold Kernel.thread at same
  split at same
  · rename_i own
    cases same
    exact different (occupancy.unique c' c q onOther own)
  · cases same

theorem Occupancy.not_current (occupancy : Occupancy k) (free : k.lock p = none)
    (other : (k.memory.proc p).state ≠ .RUNNING) (c : CpuId) : k.current c ≠ some p := by
  intro onCpu
  rcases occupancy.running c p onCpu with isRunning | ⟨held, _⟩
  · exact other isRunning
  · rw [free] at held
    cases held

theorem stacked_update {stack : Thread → List Frame} (stacked : ∀ u, WellStacked (stack u))
    (new : WellStacked frames) (u : Thread) :
    WellStacked (update stack t frames u) := by
  by_cases isThread : u = t
  · rw [isThread, update_self]
    exact new
  · rw [update_of_ne isThread]
    exact stacked u

/-- What a step of CPU `c` leaves alone for the process of another CPU. -/
structure Spared (k k' : Kernel) (c' : CpuId) (q : ProcId) : Prop where
  state : (k'.memory.proc q).state = (k.memory.proc q).state
  lock : k.lock q = some c' → k'.lock q = some c'
  stack : k'.stack (.inl q) = k.stack (.inl q)

/-- A step of CPU `c` keeps the occupancy if it spares the other CPUs and its own
process afterwards is in order. -/
theorem Occupancy.next (occupancy : Occupancy k) (c : CpuId)
    (stacked : ∀ t, WellStacked (k'.stack t))
    (current : ∀ c', c' ≠ c → k'.current c' = k.current c')
    (spared : ∀ c' q, c' ≠ c → k.current c' = some q → Spared k k' c' q)
    (own : ∀ q, k'.current c = some q → (k'.memory.proc q).state = .RUNNING ∨
      (k'.lock q = some c ∧ Leaving q (k'.stack (.inl q))))
    (alone : ∀ c' q, c' ≠ c → k'.current c = some q → k.current c' ≠ some q) :
    Occupancy k' where
  stacked := stacked
  running := by
    intro c' q onCpu
    by_cases isOwn : c' = c
    · subst isOwn
      exact own q onCpu
    · rw [current c' isOwn] at onCpu
      obtain ⟨state, lock, stack⟩ := spared c' q isOwn onCpu
      rw [state, stack]
      exact (occupancy.running c' q onCpu).imp_right fun leaving => ⟨lock leaving.1, leaving.2⟩
  unique := by
    intro c₁ c₂ q first second
    by_cases isFirst : c₁ = c
    · by_cases isSecond : c₂ = c
      · rw [isFirst, isSecond]
      · rw [current c₂ isSecond] at second
        exact absurd second (alone c₂ q isSecond (isFirst ▸ first))
    · rw [current c₁ isFirst] at first
      by_cases isSecond : c₂ = c
      · exact absurd first (alone c₁ q isFirst (isSecond ▸ second))
      · rw [current c₂ isSecond] at second
        exact occupancy.unique c₁ c₂ q first second

theorem Occupancy.stay (occupancy : Occupancy k) (c : CpuId)
    (stacked : ∀ t, WellStacked (k'.stack t))
    (current : k'.current = k.current)
    (spared : ∀ c' q, c' ≠ c → k.current c' = some q → Spared k k' c' q)
    (own : ∀ q, k.current c = some q → (k'.memory.proc q).state = .RUNNING ∨
      (k'.lock q = some c ∧ Leaving q (k'.stack (.inl q)))) : Occupancy k' := by
  refine occupancy.next c stacked (fun c' _ => by rw [current]) spared
    (by rw [current]; exact own) ?_
  intro c' q different onOwn onOther
  rw [current] at onOwn
  exact different (occupancy.unique c' c q onOther onOwn)

theorem Occupancy.spared (occupancy : Occupancy k)
    (states : ∀ q, q ≠ p → (k'.memory.proc q).state = (k.memory.proc q).state)
    (locks : ∀ q, q ≠ p → k'.lock q = k.lock q)
    (stack : ∀ q, q ≠ p → (Sum.inl q : Thread) ≠ k.thread c →
      k'.stack (.inl q) = k.stack (.inl q))
    (absent : ∀ c', c' ≠ c → k.current c' ≠ some p) :
    ∀ c' q, c' ≠ c → k.current c' = some q → Spared k k' c' q := by
  intro c' q different onOther
  have notSlot : q ≠ p := fun isSlot => absent c' different (isSlot ▸ onOther)
  exact ⟨states q notSlot, fun held => by rw [locks q notSlot]; exact held,
    stack q notSlot (occupancy.thread_ne different onOther)⟩

theorem Occupancy.absent (occupancy : Occupancy k) (own : k.current c = some p) :
    ∀ c', c' ≠ c → k.current c' ≠ some p :=
  fun c' different onOther => different (occupancy.unique c' c p onOther own)

theorem stack_of_update (stack : k'.stack = update k.stack t frames) {u : Thread}
    (different : u ≠ t) : k'.stack u = k.stack u := by
  rw [stack, update_of_ne different]

theorem Occupancy.reset {own : List Frame} {fields : Proc} (occupancy : Occupancy k)
    (active : Active k c) (free : k.lock p = none)
    (unused : (k.memory.proc p).state = .UNUSED)
    (memory : k'.memory = (clearLinks k.memory p).setProc p fields)
    (stack : k'.stack = update (update k.stack (.inl p) own)
      (k.thread c) frames)
    (ownStacked : WellStacked own) (stacked : WellStacked frames)
    (current : k'.current = k.current) (locks : ∀ q, q ≠ p → k'.lock q = k.lock q) :
    Occupancy k' := by
  have notRunning : (k.memory.proc p).state ≠ .RUNNING := by simp [unused]
  have states : ∀ q, q ≠ p → (k'.memory.proc q).state = (k.memory.proc q).state := by
    intro q different
    simp [memory, Memory.setProc, clearLinks, different]
  refine occupancy.stay c ?_ current ?_ ?_
  · rw [stack]
    exact stacked_update (stacked_update occupancy.stacked ownStacked) stacked
  · refine occupancy.spared states locks ?_ fun c' _ =>
      occupancy.not_current free notRunning c'
    intro q notSlot notThread
    rw [stack, update_of_ne notThread, update_of_ne (by simpa using notSlot)]
  · intro q onCpu
    have notSlot : q ≠ p := fun isSlot =>
      occupancy.not_current free notRunning c (isSlot ▸ onCpu)
    rw [states q notSlot]
    exact .inl (active q onCpu)

/-- A write to one process, with its lock free or its CPU executing. -/
theorem Occupancy.write (occupancy : Occupancy k) (memory : LivesBut k.memory k'.memory p)
    (stack : k'.stack = update k.stack (k.thread c) frames)
    (stacked : WellStacked frames) (locks : ∀ q, q ≠ p → k'.lock q = k.lock q)
    (current : k'.current = k.current) (active : Active k c)
    (absent : ∀ c', c' ≠ c → k.current c' ≠ some p)
    (own : k.current c = some p → (k'.memory.proc p).state = .RUNNING ∨
      (k'.lock p = some c ∧ Leaving p frames)) : Occupancy k' := by
  refine occupancy.stay c ?_ current ?_ ?_
  · rw [stack]
    exact stacked_update occupancy.stacked stacked
  · exact occupancy.spared (fun q notSlot => memory.state_eq notSlot) locks
      (fun q _ notThread => stack_of_update stack notThread) absent
  · intro q onCpu
    by_cases isSlot : q = p
    · subst isSlot
      rw [stack, thread_of_current onCpu, update_self]
      exact own onCpu
    · rw [memory.state_eq isSlot]
      exact .inl (active q onCpu)

theorem Occupancy.insert (occupancy : Occupancy k) (books : Books k queue)
    (inserted : insertProcess k.memory p = some k'.memory)
    (before : k.stack (k.thread c) = .insert p :: frames)
    (stack : k'.stack = update k.stack (k.thread c) frames)
    (current : k'.current = k.current) (lock : k'.lock = k.lock) : Occupancy k' := by
  have pending : Frame.insert p ∈ k.stack (k.thread c) := by simp [before]
  have states := books.insert_state inserted pending
  have stacked := occupancy.stacked (k.thread c)
  rw [before] at stacked
  refine occupancy.stay c ?_ current ?_ ?_
  · rw [stack]
    exact stacked_update occupancy.stacked stacked.tail
  · intro c' q different onOther
    exact ⟨states q, fun held => by rw [lock]; exact held,
      stack_of_update stack (occupancy.thread_ne different onOther)⟩
  · intro q onCpu
    rw [states q, lock]
    refine (occupancy.running c q onCpu).imp_right fun leaving => ⟨leaving.1, .inr ?_⟩
    -- A process that inserts itself is one step closer to `sched`.
    rw [stack, thread_of_current onCpu, update_self]
    rw [thread_of_current onCpu] at before
    rcases before ▸ leaving.2 with ⟨below, isInsert⟩ | ⟨below, isSched⟩
    · cases isInsert
      exact ⟨below, rfl⟩
    · cases isSched

theorem Effect.occupancy (effect : Effect k c k') (books : Books k queue)
    (occupancy : Occupancy k) : Occupancy k' := by
  cases effect with
  | control frames memory stack current lock _ _ stacked active _ =>
      refine occupancy.stay c ?_ current ?_ ?_
      · rw [stack]
        exact stacked_update occupancy.stacked stacked
      · intro c' q different onOther
        refine ⟨memory.state_eq q, fun held => ?_,
          stack_of_update stack (occupancy.thread_ne different onOther)⟩
        rcases lock q with same | isFree | isOwn
        · rw [same, held]
        · rw [held] at isFree
          cases isFree
        · rw [held] at isOwn
          exact absurd (Option.some.inj isOwn) different
      · intro q onCpu
        rw [memory.state_eq q]
        exact .inl (active q onCpu)
  | requeue p rest memory life stack current free lock _ load stacked active kind =>
      refine occupancy.write memory stack (stacked.push [.insert p] rfl)
        (fun q notSlot => by rw [lock, update_of_ne notSlot]) current active ?_ ?_
      · rcases kind with ⟨own, _⟩ | ⟨_, sleeping, _⟩
        · exact occupancy.absent own
        · exact fun c' _ => occupancy.not_current free (by simp [sleeping]) c'
      · intro own
        rcases kind with ⟨_, below, isSched⟩ | ⟨notOwn, _⟩
        · rw [isSched]
          exact .inr ⟨by rw [lock, update_self], .inl ⟨below, rfl⟩⟩
        · exact absurd own notOwn
  | retire p state rest memory life kind stack own current free lock _ load stacked active _ =>
      rw [← thread_of_current own] at stack
      refine occupancy.write memory stack (stacked.push [.sched] rfl)
        (fun q notSlot => by rw [lock, update_of_ne notSlot]) current active
        (occupancy.absent own) fun _ => ?_
      exact .inr ⟨by rw [lock, update_self], .inr ⟨rest, rfl⟩⟩
  | leave p rest memory before stack own current lock _ notRunning =>
      have stacked := occupancy.stacked (.inl p)
      rw [before] at stacked
      have gone : k'.current c = none := by rw [current, update_self]
      refine occupancy.next c ?_ ?_ ?_ ?_ ?_
      · rw [stack]
        exact stacked_update occupancy.stacked stacked.tail
      · intro c' different
        rw [current, update_of_ne different]
      · refine occupancy.spared (fun q _ => by rw [memory]) (fun q _ => by rw [lock]) ?_
          (occupancy.absent own)
        intro q notSlot _
        exact stack_of_update stack (by simpa using notSlot)
      · intro q onCpu
        rw [gone] at onCpu
        cases onCpu
      · intro c' q _ onCpu
        rw [gone] at onCpu
        cases onCpu
  | insert p rest inserted before stack current lock _ =>
      exact occupancy.insert books inserted before stack current lock
  | retrieve found retrieved before stack idle current lock _ =>
      refine occupancy.stay c ?_ current ?_ ?_
      · rw [stack]
        refine stacked_update occupancy.stacked ?_
        cases found with
        | none => exact List.Pairwise.nil
        | some p => exact List.pairwise_singleton _ _
      · intro c' q _ _
        exact ⟨books.retrieval_state retrieved q, fun held => by rw [lock]; exact held,
          stack_of_update stack (by simp)⟩
      · intro q onCpu
        rw [idle] at onCpu
        cases onCpu
  | start p rest memory life before stack current free lock _ runnable active =>
      have absent := occupancy.not_current free (by simp [runnable])
      have stacked := occupancy.stacked (k.thread c)
      rw [before] at stacked
      refine occupancy.next c ?_ ?_ ?_ ?_ ?_
      · rw [stack]
        exact stacked_update occupancy.stacked (stacked.tail.push [.switchedBack p] rfl)
      · intro c' different
        rw [current, update_of_ne different]
      · exact occupancy.spared (fun q notSlot => memory.state_eq notSlot)
          (fun q notSlot => by rw [lock, update_of_ne notSlot])
          (fun q _ notThread => stack_of_update stack notThread) fun c' _ => absent c'
      · intro q onCpu
        rw [current, update_self] at onCpu
        cases onCpu
        exact .inl (congrArg Life.state life)
      · intro c' q _ onCpu
        rw [current, update_self] at onCpu
        cases onCpu
        exact absent c'
  | allocate p rest memory stack current lock free _ _ stacked active _ unused =>
      exact occupancy.reset active free unused memory stack (by simp [WellStacked])
        (stacked.push [.forkParent p, .forkRunnable p] rfl) current fun q _ => by rw [lock]
  | abandon p rest memory stack current lock free _ _ stacked active _ unused =>
      rw [Kernel.allocate, setProc_setProc] at memory
      exact occupancy.reset active free unused memory stack List.Pairwise.nil stacked current
        fun q _ => by rw [lock]
  | birth p rest memory life before stack current lock free _ active =>
      have pending : Frame.forkRunnable p ∈ k.stack (k.thread c) := by simp [before]
      have used := books.used_of_embryo pending (q := p) (by simp [Frame.embryos])
      have absent := occupancy.not_current free (by simp [used])
      have stacked := occupancy.stacked (k.thread c)
      rw [before] at stacked
      exact occupancy.write memory stack (stacked.tail.push [.insert p] rfl)
        (fun q _ => by rw [lock]) current active (fun c' _ => absent c')
        fun own => absurd own (absent c)
  | reap p rest memory life stack current lock free _ load stacked active _ isZombie =>
      have absent := occupancy.not_current free (by simp [isZombie])
      exact occupancy.write memory stack stacked (fun q _ => by rw [lock]) current active
        (fun c' _ => absent c') fun own => absurd own (absent c)
  | charge p rest memory life before stack own current lock _ active =>
      rw [← thread_of_current own] at before stack
      have stacked := occupancy.stacked (k.thread c)
      rw [before] at stacked
      exact occupancy.write memory stack (stacked.tail.push [.yield, .trapret] rfl)
        (fun q _ => by rw [lock]) current active (occupancy.absent own)
        fun _ => .inl ((congrArg Life.state life).trans (active p own))
  | userinit p rest memory before stack current free lock _ active unused =>
      rw [Kernel.allocate, setProc_setProc] at memory
      have stacked := occupancy.stacked (k.thread c)
      rw [before] at stacked
      refine occupancy.reset active free unused memory stack (by simp [WellStacked])
        (stacked.tail.push [.insert p, .release p] rfl) current fun q notSlot => ?_
      rw [lock, update_of_ne notSlot]

end Occupied

/-! ## Reachable states -/

theorem boot_frames {t : Thread} {frame : Frame} (member : frame ∈ boot.stack t) :
    frame = .userinit ∧ ∀ q, t ≠ .inl q := by
  unfold boot at member
  dsimp only at member
  split at member
  · rename_i isFirst
    exact ⟨by simpa using member, fun q => by simp [isFirst]⟩
  · cases member

theorem Books.boot : Books boot [] where
  holds := Memory.Holds.rbinit _
  leaf := fun _ _ => ⟨rfl, rfl⟩
  tokens := by
    intro q
    rw [countAll_eq_zero_iff.mpr fun t frame member => by rw [(boot_frames member).1]; rfl]
    rfl
  embryos := by
    intro q
    rw [countAll_eq_zero_iff.mpr fun t frame member => by rw [(boot_frames member).1]; rfl]
    rfl
  loops := fun _ _ => countIn_eq_zero fun frame member => by rw [(boot_frames member).1]; rfl
  dead := fun q _ frame member => absurd rfl ((boot_frames member).2 q)

theorem Occupancy.boot : Occupancy boot where
  stacked := by
    intro t
    unfold Sched.boot
    dsimp only
    split <;> simp [WellStacked]
  running := fun c p onCpu => by cases onCpu
  unique := fun c c' p onCpu => by cases onCpu

variable {k k' : Kernel} {q : ProcId} {frames : List Frame}

theorem Books.effect {queue : List ProcId} {c : CpuId} {choice : Choice} (books : Books k queue)
    (occupancy : Occupancy k) (stepped : step k c choice = some k') : Effect k c k' := by
  refine step_effect occupancy (fun p rest top => ?_) stepped
  have pending : Frame.run p ∈ k.stack (k.thread c) := by simp [top]
  exact (books.of_token pending (by simp [Frame.tokens])).1

theorem Reachable.invariant (reachable : Reachable k) :
    ∃ queue, Books k queue ∧ Occupancy k := by
  induction reachable with
  | boot => exact ⟨[], .boot, .boot⟩
  | step _ stepped ih =>
      obtain ⟨queue, books, occupancy⟩ := ih
      have effect := books.effect occupancy stepped
      obtain ⟨queue', after⟩ := effect.books books
      exact ⟨queue', after, effect.occupancy books occupancy⟩

/-- A call has made `q` runnable and has not reached `insertProcess` yet. -/
def Pending (k : Kernel) (q : ProcId) (t : Thread) : Prop := Frame.insert q ∈ k.stack t

/-- The scheduler loop of CPU `c` has retrieved `q` and not switched to it yet. -/
def Retrieved (k : Kernel) (q : ProcId) (c : CpuId) : Prop := Frame.run q ∈ k.stack (.inr c)

def Frame.inserts (q : ProcId) : Frame → Nat
  | .insert p => if p = q then 1 else 0
  | _ => 0

theorem tokens_eq (q : ProcId) (frame : Frame) :
    frame.tokens q = frame.inserts q + frame.retrieved q := by
  cases frame <;> simp [Frame.tokens, Frame.inserts, Frame.retrieved]

theorem exists_inserts_iff :
    (∃ frame ∈ frames, 0 < frame.inserts q) ↔ Frame.insert q ∈ frames := by
  constructor
  · rintro ⟨frame, member, positive⟩
    cases frame with
    | insert p =>
        by_cases isSlot : p = q
        · rwa [isSlot] at member
        · simp [Frame.inserts, isSlot] at positive
    | _ => cases positive
  · intro member
    exact ⟨_, member, by simp [Frame.inserts]⟩

theorem exists_retrieved_iff :
    (∃ frame ∈ frames, 0 < frame.retrieved q) ↔ Frame.run q ∈ frames := by
  constructor
  · rintro ⟨frame, member, positive⟩
    cases frame with
    | run p =>
        by_cases isSlot : p = q
        · rwa [isSlot] at member
        · simp [Frame.retrieved, isSlot] at positive
    | _ => cases positive
  · intro member
    exact ⟨_, member, by simp [Frame.retrieved]⟩

section Whereabouts

variable {k : Kernel} {queue : List ProcId} {q : ProcId}

theorem not_pending_of_zero (nothing : countAll (Frame.inserts q) k.stack = 0) (t : Thread) :
    ¬ Pending k q t := by
  intro pending
  have zero := countAll_eq_zero_iff.mp nothing t _ pending
  simp [Frame.inserts] at zero

theorem not_retrieved_of_zero (nothing : countAll (Frame.retrieved q) k.stack = 0)
    (c : CpuId) : ¬ Retrieved k q c := by
  intro retrieved
  have zero := countAll_eq_zero_iff.mp nothing _ _ retrieved
  simp [Frame.retrieved] at zero

theorem existsUnique_pending (once : countAll (Frame.inserts q) k.stack = 1) :
    ∃! t, Pending k q t := by
  obtain ⟨t, carried, only⟩ := existsUnique_of_countAll_eq_one once
  exact ⟨t, exists_inserts_iff.mp carried, fun u pending =>
    only u (exists_inserts_iff.mpr pending)⟩

theorem Books.existsUnique_retrieved (books : Books k queue)
    (once : countAll (Frame.retrieved q) k.stack = 1) : ∃! c, Retrieved k q c := by
  obtain ⟨t, carried, only⟩ := existsUnique_of_countAll_eq_one once
  cases t with
  | inl p =>
      obtain ⟨frame, member, positive⟩ := carried
      have nothing := books.loops p q
      have share := carries_le_countIn (Frame.retrieved q) member
      omega
  | inr c =>
      refine ⟨c, exists_retrieved_iff.mp carried, fun c' retrieved => ?_⟩
      exact Sum.inr.inj (only (.inr c') (exists_retrieved_iff.mpr retrieved))

theorem Books.whereabouts (books : Books k queue)
    (runnable : (k.memory.proc q).state = .RUNNABLE) :
    (q ∈ queue ∧ (∀ t, ¬ Pending k q t) ∧ ∀ c, ¬ Retrieved k q c) ∨
      (q ∉ queue ∧ (∃! t, Pending k q t) ∧ ∀ c, ¬ Retrieved k q c) ∨
      (q ∉ queue ∧ (∀ t, ¬ Pending k q t) ∧ ∃! c, Retrieved k q c) := by
  have balance := books.tokens q
  rw [countAll_add (tokens_eq q) k.stack, runnable, show owed .RUNNABLE = 1 from rfl] at balance
  by_cases queued : q ∈ queue
  · have counted := List.count_pos_iff.mpr queued
    exact .inl ⟨queued, not_pending_of_zero (by omega), not_retrieved_of_zero (by omega)⟩
  · have uncounted := List.count_eq_zero.mpr queued
    by_cases pending : countAll (Frame.inserts q) k.stack = 0
    · exact .inr (.inr ⟨queued, not_pending_of_zero pending,
        books.existsUnique_retrieved (by omega)⟩)
    · exact .inr (.inl ⟨queued, existsUnique_pending (by omega),
        not_retrieved_of_zero (by omega)⟩)

end Whereabouts

/-- **Run-queue membership.** In every reachable state the tree is well formed and
holds each process at most once; its processes are runnable, so that a retrieval
takes its first process; a runnable process is in the tree, or one call is about
to insert it, or one scheduler loop has just retrieved it; no process is on two
CPUs; and an insertion that is about to happen finds room and puts the process
into the tree. -/
theorem runQueue_membership {k : Kernel} (reachable : Reachable k) :
    k.memory.WellFormed ∧ k.memory.inorder.Nodup ∧
      (∀ q ∈ k.memory.inorder, (k.memory.proc q).state = .RUNNABLE) ∧
      (∃ memory, retrieveProcess k.memory = some (memory, k.memory.inorder.head?)) ∧
      (∀ q, (k.memory.proc q).state = .RUNNABLE →
        (q ∈ k.memory.inorder ∧ (∀ t, ¬ Pending k q t) ∧ ∀ c, ¬ Retrieved k q c) ∨
        (q ∉ k.memory.inorder ∧ (∃! t, Pending k q t) ∧ ∀ c, ¬ Retrieved k q c) ∨
        (q ∉ k.memory.inorder ∧ (∀ t, ¬ Pending k q t) ∧ ∃! c, Retrieved k q c)) ∧
      (∀ c c' p, k.current c = some p → k.current c' = some p → c = c') ∧
      ∀ q t, Pending k q t → fullTree k.memory = false ∧
        ∃ memory, insertProcess k.memory q = some memory ∧
          memory.inorder = Queue.enqueue k.memory.virtualRuntime q k.memory.inorder := by
  obtain ⟨queue, books, occupancy⟩ := reachable.invariant
  have queued := books.holds.inorder_eq
  rw [queued]
  refine ⟨books.holds.wellFormed, books.holds.nodup, fun q => books.runnable_of_mem, ?_,
    fun q => books.whereabouts, occupancy.unique, ?_⟩
  · cases queue with
    | nil => exact ⟨_, retrieveProcess_empty books.holds⟩
    | cons first rest =>
        obtain ⟨memory, returned, _⟩ :=
          retrieveProcess_spec books.holds (books.runnable_of_mem List.mem_cons_self)
        exact ⟨memory, returned⟩
  · intro q t pending
    obtain ⟨_, missing, leaf⟩ := books.insertion pending
    obtain ⟨memory, returned, holds, _⟩ := insertProcess_spec books.holds missing leaf
    have room := length_lt_of_not_mem books.holds.nodup missing
    refine ⟨?_, memory, returned, holds.inorder_eq⟩
    have different : (queue.length : Int) ≠ NPROC := by omega
    rw [fullTree, books.holds.count]
    exact decide_eq_false different

def Kernel.follow (k : Kernel) : List (CpuId × Choice) → Option Kernel
  | [] => some k
  | (c, choice) :: schedule => (step k c choice).bind fun next => next.follow schedule

theorem Reachable.follow {schedule : List (CpuId × Choice)} (reachable : Reachable k)
    (followed : k.follow schedule = some k') : Reachable k' := by
  induction schedule generalizing k with
  | nil =>
      cases followed
      exact reachable
  | cons entry schedule ih =>
      obtain ⟨next, stepped, followed⟩ := Option.bind_eq_some_iff.mp followed
      exact ih (reachable.step stepped) followed

/-- A state with a decidable property, found by following a schedule from `boot`. -/
theorem Reachable.exists_of_follow (schedule : List (CpuId × Choice)) (test : Kernel → Prop)
    [DecidablePred test]
    (checked : (Sched.boot.follow schedule).any (fun k => test k) = true) :
    ∃ k, Reachable k ∧ test k := by
  cases followed : Sched.boot.follow schedule with
  | none =>
      rw [followed] at checked
      cases checked
  | some k =>
      rw [followed] at checked
      exact ⟨k, Reachable.boot.follow followed, by simpa using checked⟩

def slot (index : Nat) (inTable : index < NPROC := by decide) : ProcId := ⟨index, inTable⟩

/-- CPU 0 creates the first process; CPU 1 runs it and makes it fork. -/
def forkSchedule (forks : List Nat) : List (CpuId × Choice) :=
  List.replicate 3 (⟨0, zero_lt_NCPU⟩, .resume true) ++
    List.replicate 3 (⟨1, one_lt_NCPU⟩, .resume true) ++
    forks.flatMap fun steps =>
      (⟨1, one_lt_NCPU⟩, .request .fork) :: List.replicate steps (⟨1, one_lt_NCPU⟩, .resume true)

theorem runQueue_membership_fork : ∃ k, Reachable k ∧
    k.memory.inorder = [slot 1] ∧ Pending k (slot 2) (.inl (slot 0)) ∧
    k.current ⟨1, by decide⟩ = some (slot 0) ∧ k.memory.WellFormed ∧
    fullTree k.memory = false := by
  obtain ⟨k, reachable, queued, pending, onCpu⟩ := Reachable.exists_of_follow
    (forkSchedule [5, 5])
    (fun k => k.memory.inorder = [slot 1] ∧
      Frame.insert (slot 2) ∈ k.stack (.inl (slot 0)) ∧
      k.current ⟨1, by decide⟩ = some (slot 0)) (by decide +kernel)
  obtain ⟨wellFormed, _, _, _, _, _, insertions⟩ := runQueue_membership reachable
  exact ⟨k, reachable, queued, pending, onCpu, wellFormed, (insertions _ _ pending).1⟩

end Xv6.Sched
