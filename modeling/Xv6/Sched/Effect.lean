import Xv6.Sched.Machine
import Xv6.Threads.Count

/-!
Contract: what one step of the machine can do, said once.

Owns: the part of a process that scheduling is about (`Life`), what frames carry
(`Frame.tokens`, `Frame.embryos`), who occupies a CPU (`Occupancy`), the
kinds of step (`Effect`) and `step_effect`, which puts every step of every frame
into one of them. Invariants are proved by cases on `Effect`.
-/

namespace Xv6.Sched

open Xv6.Kernel
open Xv6.Cfs
open Xv6.Threads
open Function

/-- The fields of a process that scheduling is about. -/
structure Life where
  state : ProcState
  virtualRuntime : Int
  currentRuntime : Int
  maximumExecutiontime : Int

def lifeOf (memory : Memory) (p : ProcId) : Life where
  state := (memory.proc p).state
  virtualRuntime := (memory.proc p).virtualRuntime
  currentRuntime := (memory.proc p).currentRuntime
  maximumExecutiontime := (memory.proc p).maximumExecutiontime

/-- The run queue is not written, and of the lives at most the one of `p`. -/
structure LivesBut (before after : Memory) (p : ProcId) : Prop where
  rb : after.rb = before.rb
  count : after.count = before.count
  minimum : after.min_vRuntime = before.min_vRuntime
  others : ∀ q, q ≠ p → lifeOf after q = lifeOf before q

/-- Neither the run queue nor any life is written. -/
structure SameLives (before after : Memory) : Prop where
  rb : after.rb = before.rb
  count : after.count = before.count
  minimum : after.min_vRuntime = before.min_vRuntime
  lives : ∀ q, lifeOf after q = lifeOf before q

/-- The frame is responsible for the runnable process `q`: it will insert it into
the tree, or has just retrieved it. -/
def Frame.tokens (q : ProcId) : Frame → Nat
  | .insert p => if p = q then 1 else 0
  | .run p => if p = q then 1 else 0
  | _ => 0

def Frame.retrieved (q : ProcId) : Frame → Nat
  | .run p => if p = q then 1 else 0
  | _ => 0

/-- The frame will make the new process `q` runnable. -/
def Frame.embryos (q : ProcId) : Frame → Nat
  | .forkRunnable np => if np = q then 1 else 0
  | _ => 0

/-- The process has given up the CPU and is on its way to the scheduler. -/
def Leaving (p : ProcId) (frames : List Frame) : Prop :=
  (∃ rest, frames = .insert p :: .sched :: rest) ∨ ∃ rest, frames = .sched :: rest

/-- A frame that no call in progress is below: `exit` and the trap from user mode
start on an empty stack. -/
def Frame.atBottom : Frame → Bool
  | .zombie _ => true
  | .usertrap => true
  | _ => false

/-- Only the lowest frame is one of these. -/
def WellStacked (frames : List Frame) : Prop :=
  frames.Pairwise fun above _ => above.atBottom = false

/-- A CPU's process is `RUNNING`, or it holds its own lock and is leaving; no
process is on two CPUs. -/
structure Occupancy (k : Kernel) : Prop where
  stacked : ∀ t, WellStacked (k.stack t)
  running : ∀ c p, k.current c = some p → (k.memory.proc p).state = .RUNNING ∨
    (k.lock p = some c ∧ Leaving p (k.stack (.inl p)))
  unique : ∀ c c' p, k.current c = some p → k.current c' = some p → c = c'

/-- The process of CPU `c`, if there is one, is `RUNNING`. -/
def Active (k : Kernel) (c : CpuId) : Prop :=
  ∀ p, k.current c = some p → (k.memory.proc p).state = .RUNNING

/-- The frames of the executing thread carry the same as before. -/
structure SameLoad (old new : List Frame) : Prop where
  tokens : ∀ q, countIn (Frame.tokens q) new = countIn (Frame.tokens q) old
  retrieved : ∀ q, countIn (Frame.retrieved q) new = countIn (Frame.retrieved q) old
  embryos : ∀ q, countIn (Frame.embryos q) new = countIn (Frame.embryos q) old

def WithinSlice (life : Life) : Prop :=
  life.currentRuntime < max life.maximumExecutiontime min_granularity

/-- A handler that leaves its `yield` without preemption has found the process
within its slice. -/
def Checked (k : Kernel) (c : CpuId) : Prop :=
  ∀ p rest, k.stack (k.thread c) = .yield :: .trapret :: rest → k.current c = some p →
    WithinSlice (lifeOf k.memory p)

/-- The kinds of step. `c` is the CPU, its thread is `k.thread c`. -/
inductive Effect (k : Kernel) (c : CpuId) (k' : Kernel) : Prop where
  /-- Moves of control, of locks held by `c`, and of other fields. -/
  | control (frames : List Frame) (memory : SameLives k.memory k'.memory)
      (stack : k'.stack = update k.stack (k.thread c) frames)
      (current : k'.current = k.current)
      (lock : ∀ p, k'.lock p = k.lock p ∨ k.lock p = none ∨ k.lock p = some c)
      (charged : k'.charged = k.charged) (load : SameLoad (k.stack (k.thread c)) frames)
      (stacked : WellStacked frames) (active : Active k c) (checked : Checked k c)
  /-- `yield`, `wakeup` or `kill` makes `p` runnable. -/
  | requeue (p : ProcId) (rest : List Frame) (memory : LivesBut k.memory k'.memory p)
      (life : lifeOf k'.memory p = lifeOf (k.memory.setProc p (requeued (k.memory.proc p))) p)
      (stack : k'.stack = update k.stack (k.thread c) (.insert p :: rest))
      (current : k'.current = k.current) (free : k.lock p = none)
      (lock : k'.lock = update k.lock p (some c)) (charged : k'.charged = k.charged)
      (load : SameLoad (k.stack (k.thread c)) rest) (stacked : WellStacked rest)
      (active : Active k c)
      (kind : (k.current c = some p ∧ ∃ below, rest = .sched :: below) ∨
        (k.current c ≠ some p ∧ (k.memory.proc p).state = .SLEEPING ∧ Checked k c))
  /-- `sleep` or `exit` takes the running process off. -/
  | retire (p : ProcId) (state : ProcState) (rest : List Frame)
      (memory : LivesBut k.memory k'.memory p)
      (life : lifeOf k'.memory p = { lifeOf k.memory p with state })
      (kind : state = .SLEEPING ∨ state = .ZOMBIE ∧ rest = [])
      (stack : k'.stack = update k.stack (.inl p) (.sched :: rest))
      (own : k.current c = some p) (current : k'.current = k.current)
      (free : k.lock p = none) (lock : k'.lock = update k.lock p (some c))
      (charged : k'.charged = k.charged)
      (load : SameLoad (k.stack (.inl p)) rest) (stacked : WellStacked rest)
      (active : Active k c) (checked : Checked k c)
  /-- `sched` switches to the scheduler. -/
  | leave (p : ProcId) (rest : List Frame) (memory : k'.memory = k.memory)
      (before : k.stack (.inl p) = .sched :: rest)
      (stack : k'.stack = update k.stack (.inl p) rest)
      (own : k.current c = some p) (current : k'.current = update k.current c none)
      (lock : k'.lock = k.lock) (charged : k'.charged = k.charged)
      (notRunning : (k.memory.proc p).state ≠ .RUNNING)
  | insert (p : ProcId) (rest : List Frame)
      (inserted : insertProcess k.memory p = some k'.memory)
      (before : k.stack (k.thread c) = .insert p :: rest)
      (stack : k'.stack = update k.stack (k.thread c) rest)
      (current : k'.current = k.current) (lock : k'.lock = k.lock)
      (charged : k'.charged = k.charged)
  /-- `retrieveProcess` in an idle scheduler loop. -/
  | retrieve (found : Option ProcId)
      (retrieved : retrieveProcess k.memory = some (k'.memory, found))
      (before : k.stack (.inr c) = [])
      (stack : k'.stack = update k.stack (.inr c) (found.map .run).toList)
      (idle : k.current c = none) (current : k'.current = k.current)
      (lock : k'.lock = k.lock) (charged : k'.charged = k.charged)
  /-- The scheduler starts the process it retrieved. -/
  | start (p : ProcId) (rest : List Frame) (memory : LivesBut k.memory k'.memory p)
      (life : lifeOf k'.memory p = { lifeOf k.memory p with state := .RUNNING })
      (before : k.stack (k.thread c) = .run p :: rest)
      (stack : k'.stack = update k.stack (k.thread c) (.switchedBack p :: rest))
      (current : k'.current = update k.current c (some p))
      (free : k.lock p = none) (lock : k'.lock = update k.lock p (some c))
      (charged : k'.charged = k.charged)
      (runnable : (k.memory.proc p).state = .RUNNABLE) (active : Active k c)
  /-- `allocproc` takes a free slot; the new process is still in the hands of
  `fork`. -/
  | allocate (p : ProcId) (rest : List Frame)
      (memory : k'.memory = (k.allocate p).memory)
      (stack : k'.stack = update (update k.stack (.inl p) [.release p])
        (k.thread c) (.forkParent p :: .forkRunnable p :: rest))
      (current : k'.current = k.current) (lock : k'.lock = k.lock) (free : k.lock p = none)
      (charged : k'.charged = update k.charged p 0)
      (load : SameLoad (k.stack (k.thread c)) rest) (stacked : WellStacked rest)
      (active : Active k c) (checked : Checked k c)
      (unused : (k.memory.proc p).state = .UNUSED)
  /-- A failed `fork` frees the slot again. -/
  | abandon (p : ProcId) (rest : List Frame)
      (memory : k'.memory = (k.allocate p).memory.setProc p
        (freeproc ((k.allocate p).memory.proc p)))
      (stack : k'.stack = update (update k.stack (.inl p) [])
        (k.thread c) rest)
      (current : k'.current = k.current) (lock : k'.lock = k.lock) (free : k.lock p = none)
      (charged : k'.charged = update k.charged p 0)
      (load : SameLoad (k.stack (k.thread c)) rest) (stacked : WellStacked rest)
      (active : Active k c) (checked : Checked k c)
      (unused : (k.memory.proc p).state = .UNUSED)
  /-- `fork` makes the new process runnable. -/
  | birth (p : ProcId) (rest : List Frame) (memory : LivesBut k.memory k'.memory p)
      (life : lifeOf k'.memory p = { lifeOf k.memory p with state := .RUNNABLE })
      (before : k.stack (k.thread c) = .forkRunnable p :: rest)
      (stack : k'.stack = update k.stack (k.thread c) (.insert p :: rest))
      (current : k'.current = k.current) (lock : k'.lock = k.lock) (free : k.lock p = none)
      (charged : k'.charged = k.charged) (active : Active k c)
  /-- `wait` frees a zombie. -/
  | reap (p : ProcId) (rest : List Frame) (memory : LivesBut k.memory k'.memory p)
      (life : lifeOf k'.memory p = { lifeOf k.memory p with state := .UNUSED })
      (stack : k'.stack = update k.stack (k.thread c) rest)
      (current : k'.current = k.current) (lock : k'.lock = k.lock) (free : k.lock p = none)
      (charged : k'.charged = k.charged) (load : SameLoad (k.stack (k.thread c)) rest)
      (stacked : WellStacked rest) (active : Active k c) (checked : Checked k c)
      (isZombie : (k.memory.proc p).state = .ZOMBIE)
  /-- `usertrap` charges a tick. -/
  | charge (p : ProcId) (rest : List Frame) (memory : LivesBut k.memory k'.memory p)
      (life : lifeOf k'.memory p = { lifeOf k.memory p with
        currentRuntime := int32 ((k.memory.proc p).currentRuntime + 1) })
      (before : k.stack (.inl p) = .usertrap :: rest)
      (stack : k'.stack = update k.stack (.inl p) (.yield :: .trapret :: rest))
      (own : k.current c = some p) (current : k'.current = k.current)
      (lock : k'.lock = k.lock)
      (charged : k'.charged = update k.charged p (k.charged p + 1))
      (active : Active k c)
  | userinit (p : ProcId) (rest : List Frame)
      (memory : k'.memory = (k.allocate p).memory.setProc p
        { (k.allocate p).memory.proc p with state := .RUNNABLE })
      (before : k.stack (k.thread c) = .userinit :: rest)
      (stack : k'.stack = update (update k.stack (.inl p) [.release p])
        (k.thread c) (.insert p :: .release p :: rest))
      (current : k'.current = k.current) (free : k.lock p = none)
      (lock : k'.lock = update k.lock p (some c))
      (charged : k'.charged = update k.charged p 0) (active : Active k c)
      (unused : (k.memory.proc p).state = .UNUSED)

variable {k : Kernel} {c : CpuId} {p : ProcId} {frame : Frame} {rest : List Frame}

theorem SameLives.refl (memory : Memory) : SameLives memory memory :=
  ⟨rfl, rfl, rfl, fun _ => rfl⟩

theorem LivesBut.setProc (memory : Memory) (p : ProcId) (fields : Proc) :
    LivesBut memory (memory.setProc p fields) p where
  rb := rfl
  count := rfl
  minimum := rfl
  others := by
    intro q different
    simp [lifeOf, Memory.setProc, different]

theorem SameLives.setProc {memory : Memory} {fields : Proc}
    (same : lifeOf (memory.setProc p fields) p = lifeOf memory p) :
    SameLives memory (memory.setProc p fields) where
  rb := rfl
  count := rfl
  minimum := rfl
  lives := by
    intro q
    by_cases isSlot : q = p
    · rw [isSlot]
      exact same
    · exact (LivesBut.setProc memory p fields).others q isSlot

theorem SameLoad.refl (frames : List Frame) : SameLoad frames frames :=
  ⟨fun _ => rfl, fun _ => rfl, fun _ => rfl⟩

theorem thread_of_current (own : k.current c = some p) : k.thread c = .inl p := by
  simp [Kernel.thread, own]

theorem thread_of_idle (idle : k.current c = none) :
    k.thread c = .inr c := by
  simp [Kernel.thread, idle]

theorem Occupancy.active (occupancy : Occupancy k)
    (staying : ∀ p, ¬ Leaving p (k.stack (k.thread c))) : Active k c := by
  intro p own
  rcases occupancy.running c p own with isRunning | ⟨_, leaving⟩
  · exact isRunning
  · rw [← thread_of_current own] at leaving
    exact absurd leaving (staying p)

/-- A frame other than `sched` and `insert` runs in a `RUNNING` process. -/
theorem Occupancy.active_of_top (occupancy : Occupancy k)
    (top : k.stack (k.thread c) = frame :: rest) (notSched : frame ≠ .sched)
    (notInsert : ∀ p, frame ≠ .insert p) : Active k c := by
  refine occupancy.active fun p leaving => ?_
  rw [top] at leaving
  rcases leaving with ⟨_, isInsert⟩ | ⟨_, isSched⟩
  · cases isInsert
    exact notInsert p rfl
  · cases isSched
    exact notSched rfl

theorem Checked.of_top (top : k.stack (k.thread c) = frame :: rest) (notYield : frame ≠ .yield) :
    Checked k c := by
  intro p below isYield _
  rw [top] at isYield
  cases isYield
  exact absurd rfl notYield

/-! ## The load of the stacks -/

def Frame.light : Frame → Bool
  | .insert _ => false
  | .run _ => false
  | .forkRunnable _ => false
  | _ => true

theorem Frame.carries_of_light (light : frame.light = true) (q : ProcId) :
    frame.tokens q = 0 ∧ frame.retrieved q = 0 ∧ frame.embryos q = 0 := by
  cases frame <;> first | exact ⟨rfl, rfl, rfl⟩ | cases light

theorem countIn_of_light {frames : List Frame} (light : frames.all Frame.light = true)
    (q : ProcId) :
    countIn (Frame.tokens q) frames = 0 ∧ countIn (Frame.retrieved q) frames = 0 ∧
      countIn (Frame.embryos q) frames = 0 := by
  have each : ∀ frame ∈ frames,
      frame.tokens q = 0 ∧ frame.retrieved q = 0 ∧ frame.embryos q = 0 :=
    fun frame member => Frame.carries_of_light (List.all_eq_true.mp light frame member) q
  exact ⟨countIn_eq_zero fun frame member => (each frame member).1,
    countIn_eq_zero fun frame member => (each frame member).2.1,
    countIn_eq_zero fun frame member => (each frame member).2.2⟩

/-- Light frames on top of a stack are exchanged for light frames. -/
theorem SameLoad.swap (old new rest : List Frame)
    (oldLight : old.all Frame.light = true) (newLight : new.all Frame.light = true) :
    SameLoad (old ++ rest) (new ++ rest) := by
  constructor
  · intro q
    rw [countIn_append, countIn_append, (countIn_of_light oldLight q).1,
      (countIn_of_light newLight q).1]
  · intro q
    rw [countIn_append, countIn_append, (countIn_of_light oldLight q).2.1,
      (countIn_of_light newLight q).2.1]
  · intro q
    rw [countIn_append, countIn_append, (countIn_of_light oldLight q).2.2,
      (countIn_of_light newLight q).2.2]

/-! ## The order of the frames -/

theorem WellStacked.tail (stacked : WellStacked (frame :: rest)) : WellStacked rest :=
  (List.pairwise_cons.mp stacked).2

theorem WellStacked.push (new : List Frame)
    (above : new.all (fun frame => !frame.atBottom) = true) (stacked : WellStacked rest) :
    WellStacked (new ++ rest) := by
  have each : ∀ frame ∈ new, frame.atBottom = false := by simpa using above
  refine List.pairwise_append.mpr ⟨?_, stacked, fun frame member _ _ => each frame member⟩
  exact List.pairwise_of_forall_mem_list fun frame member _ _ => each frame member

theorem WellStacked.nothing_below
    (stacked : WellStacked (frame :: rest)) (bottom : frame.atBottom = true) : rest = [] := by
  cases rest with
  | nil => rfl
  | cons next below =>
      have above := (List.pairwise_cons.mp stacked).1 next List.mem_cons_self
      rw [bottom] at above
      cases above

/-- The frame carries nothing and may be above others. -/
def Frame.plain (frame : Frame) : Bool := frame.light && !frame.atBottom

theorem Occupancy.replaceTop {t : Thread}
    (occupancy : Occupancy k) (top : k.stack t = frame :: rest) (light : frame.light = true)
    (new : List Frame) (plain : new.all Frame.plain = true) :
    SameLoad (k.stack t) (new ++ rest) ∧ WellStacked (new ++ rest) := by
  have each : ∀ frame ∈ new, frame.light = true ∧ frame.atBottom = false := by
    simpa [Frame.plain] using plain
  have stacked := occupancy.stacked t
  rw [top] at stacked ⊢
  refine ⟨SameLoad.swap [frame] new rest (by simpa using light) ?_, stacked.tail.push new ?_⟩
  · exact List.all_eq_true.mpr fun other member => (each other member).1
  · simpa using fun other member => (each other member).2

/-! ## The effect of each frame -/

section Effects

variable {k k' : Kernel} {c : CpuId} {rest : List Frame} {slot : Nat} {ok : Bool}
  {chan : Option Chan} {np : ProcId} {request : Request}

/-- A step that replaces the top frame by plain ones and writes no life. -/
theorem Effect.move (new : List Frame) (occupancy : Occupancy k)
    (top : k.stack (k.thread c) = frame :: rest) (light : frame.light = true)
    (plain : new.all Frame.plain = true) (notSched : frame ≠ .sched) (notYield : frame ≠ .yield)
    (memory : SameLives k.memory k'.memory)
    (stack : k'.stack = update k.stack (k.thread c) (new ++ rest))
    (current : k'.current = k.current)
    (lock : ∀ p, k'.lock p = k.lock p ∨ k.lock p = none ∨ k.lock p = some c)
    (charged : k'.charged = k.charged) : Effect k c k' := by
  obtain ⟨load, stacked⟩ := occupancy.replaceTop top light new plain
  refine .control (new ++ rest) memory stack current lock charged load stacked ?_
    (.of_top top notYield)
  refine occupancy.active_of_top top notSched ?_
  rintro p rfl
  cases light

theorem runRelease_effect (occupancy : Occupancy k)
    (top : k.stack (k.thread c) = frame :: rest) (light : frame.light = true)
    (notSched : frame ≠ .sched) (notYield : frame ≠ .yield)
    (ran : runRelease k c (k.thread c) rest p = some k') : Effect k c k' := by
  unfold runRelease at ran
  split at ran
  · rename_i held
    cases ran
    refine .move [] occupancy top light rfl notSched notYield (.refl _) rfl rfl
      (fun q => ?_) rfl
    by_cases same : q = p
    · rw [same]
      exact .inr (.inr held)
    · exact .inl (by simp [same])
  · cases ran

theorem runInsert_effect (top : k.stack (k.thread c) = .insert p :: rest)
    (ran : runInsert k (k.thread c) rest p = some k') : Effect k c k' := by
  obtain ⟨memory, inserted, isNext⟩ := Option.bind_eq_some_iff.mp ran
  cases isNext
  exact .insert p rest inserted top rfl rfl rfl rfl

theorem runSched_effect (top : k.stack (k.thread c) = .sched :: rest)
    (ran : runSched k c (k.thread c) rest = some k') : Effect k c k' := by
  obtain ⟨p, own, ran⟩ := Option.bind_eq_some_iff.mp ran
  have thread := thread_of_current own
  split at ran
  · rename_i allowed
    cases ran
    rw [thread] at top ⊢
    exact .leave p rest rfl top rfl own rfl rfl rfl allowed.2
  · cases ran

/-- A `yield` that does not preempt found the process within its slice. -/
theorem within_slice {memory : Memory}
    (kept : ¬ checkPreemption memory.proc p memory.min_vRuntime = true) :
    WithinSlice (lifeOf memory p) := by
  by_contra exceeded
  simp only [WithinSlice, lifeOf] at exceeded
  apply kept
  have pastSlice : (memory.proc p).currentRuntime ≥ (memory.proc p).maximumExecutiontime ∧
      (memory.proc p).currentRuntime ≥ min_granularity := by omega
  simp [checkPreemption, pastSlice]

theorem runYield_effect (occupancy : Occupancy k) (top : k.stack (k.thread c) = .yield :: rest)
    (ran : runYield k c (k.thread c) rest = some k') : Effect k c k' := by
  obtain ⟨p, own, ran⟩ := Option.bind_eq_some_iff.mp ran
  have active := occupancy.active_of_top top (by simp) (by simp)
  split at ran
  · rename_i free
    split at ran
    · cases ran
      obtain ⟨load, stacked⟩ := occupancy.replaceTop top rfl [.sched, .release p] rfl
      exact .requeue p (.sched :: .release p :: rest) (.setProc _ _ _) rfl rfl rfl free rfl
        rfl load stacked active (.inl ⟨own, _, rfl⟩)
    · rename_i kept
      cases ran
      obtain ⟨load, stacked⟩ := occupancy.replaceTop top rfl [] rfl
      refine .control rest (.refl _) rfl rfl (fun _ => .inl rfl) rfl load stacked active ?_
      intro q below _ isOwn
      rw [own] at isOwn
      cases isOwn
      exact within_slice kept
  · cases ran

theorem runSleep_effect {lk : SleepLock} (occupancy : Occupancy k)
    (top : k.stack (k.thread c) = .sleep chan lk :: rest)
    (ran : runSleep k c (k.thread c) rest chan lk = some k') : Effect k c k' := by
  obtain ⟨p, own, ran⟩ := Option.bind_eq_some_iff.mp ran
  have active := occupancy.active_of_top top (by simp) (by simp)
  have checked := Checked.of_top top (by simp)
  split at ran
  · rename_i free
    cases ran
    rw [thread_of_current own] at top ⊢
    have plain : (.tidyUp :: reacquire lk : List Frame).all Frame.plain = true := by
      cases lk <;> rfl
    obtain ⟨load, stacked⟩ := occupancy.replaceTop top rfl (.tidyUp :: reacquire lk) plain
    refine .retire p .SLEEPING (.tidyUp :: (reacquire lk ++ rest)) (.setProc _ _ _) ?_
      (.inl rfl) rfl own rfl free rfl rfl load stacked active checked
    simp [lifeOf, Memory.setProc]
  · cases ran

theorem runTidyUp_effect (occupancy : Occupancy k) (top : k.stack (k.thread c) = .tidyUp :: rest)
    (ran : runTidyUp k c (k.thread c) rest = some k') : Effect k c k' := by
  obtain ⟨p, own, ran⟩ := Option.bind_eq_some_iff.mp ran
  split at ran
  · rename_i held
    cases ran
    refine .move [] occupancy top rfl rfl (by simp) (by simp) (.setProc ?_) rfl rfl
      (fun q => ?_) rfl
    · simp [lifeOf, Memory.setProc]
    · by_cases same : q = p
      · rw [same]
        exact .inr (.inr held)
      · exact .inl (by simp [same])
  · cases ran

theorem Effect.goto (occupancy : Occupancy k)
    (top : k.stack (k.thread c) = frame :: rest) (light : frame.light = true)
    (notSched : frame ≠ .sched) (notYield : frame ≠ .yield) (new : List Frame)
    (plain : new.all Frame.plain = true) :
    Effect k c (k.goto (k.thread c) (new ++ rest)) :=
  .move new occupancy top light plain notSched notYield (.refl _) rfl rfl
    (fun _ => .inl rfl) rfl

theorem runWakeup_effect (occupancy : Occupancy k)
    (top : k.stack (k.thread c) = .wakeup chan slot :: rest)
    (ran : runWakeup k c (k.thread c) rest chan slot = some k') : Effect k c k' := by
  have active := occupancy.active_of_top top (by simp) (by simp)
  have moves := Effect.goto occupancy top rfl (by simp) (by simp)
  unfold runWakeup at ran
  split at ran
  · rename_i inTable
    dsimp only at ran
    split at ran
    · cases ran
      exact moves [.wakeup chan (slot + 1)] rfl
    · rename_i notSelf
      split at ran
      · rename_i free
        split at ran
        · rename_i asleep
          cases ran
          obtain ⟨load, stacked⟩ := occupancy.replaceTop top rfl
            [.release ⟨slot, inTable⟩, .wakeup chan (slot + 1)] rfl
          exact .requeue ⟨slot, inTable⟩
            (.release ⟨slot, inTable⟩ :: .wakeup chan (slot + 1) :: rest) (.setProc _ _ _) rfl
            rfl rfl free rfl rfl load stacked active
            (.inr ⟨notSelf, asleep.1, .of_top top (by simp)⟩)
        · cases ran
          exact moves [.wakeup chan (slot + 1)] rfl
      · cases ran
  · cases ran
    exact moves [] rfl

theorem runKill_effect {pid : Int} (occupancy : Occupancy k)
    (top : k.stack (k.thread c) = .kill pid slot :: rest)
    (ran : runKill k c (k.thread c) rest pid slot = some k') : Effect k c k' := by
  have active := occupancy.active_of_top top (by simp) (by simp)
  have moves := Effect.goto occupancy top rfl (by simp) (by simp)
  unfold runKill at ran
  split at ran
  · rename_i inTable
    dsimp only at ran
    split at ran
    · rename_i free
      split at ran
      · split at ran
        · rename_i asleep
          cases ran
          obtain ⟨load, stacked⟩ :=
            occupancy.replaceTop top rfl [.release ⟨slot, inTable⟩] rfl
          refine .requeue ⟨slot, inTable⟩ (.release ⟨slot, inTable⟩ :: rest) (.setProc _ _ _)
            ?_ rfl rfl free rfl rfl load stacked active
            (.inr ⟨fun own => ?_, asleep, .of_top top (by simp)⟩)
          · simp [lifeOf, Memory.setProc, requeued]
          · -- A process that kills itself is `RUNNING`.
            have isRunning := active _ own
            rw [asleep] at isRunning
            cases isRunning
        · cases ran
          refine .move [] occupancy top rfl rfl (by simp) (by simp) (.setProc ?_) rfl rfl
            (fun _ => .inl rfl) rfl
          simp [lifeOf, Memory.setProc]
      · cases ran
        exact moves [.kill pid (slot + 1)] rfl
    · cases ran
  · cases ran
    exact moves [] rfl

theorem runAllocproc_effect (occupancy : Occupancy k)
    (top : k.stack (k.thread c) = .allocproc slot :: rest)
    (ran : runAllocproc k (k.thread c) rest ok slot = some k') : Effect k c k' := by
  have active := occupancy.active_of_top top (by simp) (by simp)
  have moves := Effect.goto occupancy top rfl (by simp) (by simp)
  obtain ⟨load, stacked⟩ := occupancy.replaceTop top rfl [] rfl
  unfold runAllocproc at ran
  split at ran
  · rename_i inTable
    dsimp only at ran
    split at ran
    · rename_i free
      split at ran
      · rename_i unused
        split at ran
        · cases ran
          exact .allocate ⟨slot, inTable⟩ rest rfl rfl rfl rfl free rfl load stacked active
            (.of_top top (by simp)) unused
        · cases ran
          refine .abandon ⟨slot, inTable⟩ rest rfl ?_ rfl rfl free rfl load stacked active
            (.of_top top (by simp)) unused
          simp [Kernel.allocate]
      · cases ran
        exact moves [.allocproc (slot + 1)] rfl
    · cases ran
  · cases ran
    exact moves [] rfl

theorem runForkParent_effect (occupancy : Occupancy k)
    (top : k.stack (k.thread c) = .forkParent np :: rest)
    (ran : runForkParent k c (k.thread c) rest np = some k') : Effect k c k' := by
  unfold runForkParent at ran
  split at ran
  · cases ran
    refine .move [] occupancy top rfl rfl (by simp) (by simp) (.setProc ?_) rfl rfl
      (fun _ => .inl rfl) rfl
    simp [lifeOf, Memory.setProc]
  · cases ran

theorem runForkRunnable_effect (occupancy : Occupancy k)
    (top : k.stack (k.thread c) = .forkRunnable np :: rest)
    (ran : runForkRunnable k (k.thread c) rest np = some k') : Effect k c k' := by
  have active := occupancy.active_of_top top (by simp) (by simp)
  unfold runForkRunnable at ran
  split at ran
  · rename_i free
    cases ran
    refine .birth np rest (.setProc _ _ _) ?_ top rfl rfl rfl free rfl active
    simp [lifeOf, Memory.setProc]
  · cases ran

theorem runAcquireWait_effect (occupancy : Occupancy k)
    (top : k.stack (k.thread c) = .acquireWait :: rest)
    (ran : runAcquireWait k c (k.thread c) rest = some k') : Effect k c k' := by
  unfold runAcquireWait at ran
  split at ran
  · cases ran
    exact .move [] occupancy top rfl rfl (by simp) (by simp) (.refl _) rfl rfl
      (fun _ => .inl rfl) rfl
  · cases ran

theorem runReparent_effect (occupancy : Occupancy k)
    (top : k.stack (k.thread c) = .reparent slot :: rest)
    (ran : runReparent k c (k.thread c) rest slot = some k') : Effect k c k' := by
  have moves := Effect.goto occupancy top rfl (by simp) (by simp)
  obtain ⟨p, own, ran⟩ := Option.bind_eq_some_iff.mp ran
  split at ran
  · rename_i inTable
    dsimp only at ran
    split at ran
    · cases ran
      refine .move [.wakeup (Chan.ofProc k.initproc) 0, .reparent (slot + 1)] occupancy top
        rfl rfl (by simp) (by simp) (.setProc ?_) rfl rfl (fun _ => .inl rfl) rfl
      simp [lifeOf, Memory.setProc]
    · cases ran
      exact moves [.reparent (slot + 1)] rfl
  · cases ran
    exact moves [] rfl

theorem runWakeParent_effect (occupancy : Occupancy k)
    (top : k.stack (k.thread c) = .wakeParent :: rest)
    (ran : runWakeParent k c (k.thread c) rest = some k') : Effect k c k' := by
  obtain ⟨p, own, ran⟩ := Option.bind_eq_some_iff.mp ran
  cases ran
  exact Effect.goto occupancy top rfl (by simp) (by simp)
    [.wakeup (Chan.ofProc (k.memory.proc p).parent) 0] rfl

theorem runZombie_effect {status : Int} (occupancy : Occupancy k)
    (top : k.stack (k.thread c) = .zombie status :: rest)
    (ran : runZombie k c (k.thread c) status = some k') : Effect k c k' := by
  have active := occupancy.active_of_top top (by simp) (by simp)
  obtain ⟨p, own, ran⟩ := Option.bind_eq_some_iff.mp ran
  have stacked := occupancy.stacked (k.thread c)
  rw [top] at stacked
  have nothing : rest = [] := stacked.nothing_below rfl
  subst nothing
  have checked := Checked.of_top top (by simp)
  split at ran
  · rename_i free
    cases ran
    rw [thread_of_current own] at top ⊢
    obtain ⟨load, _⟩ := occupancy.replaceTop top rfl [] rfl
    refine .retire p .ZOMBIE [] (.setProc _ _ _) ?_ (.inr ⟨rfl, rfl⟩) rfl own rfl free rfl
      rfl load .nil active checked
    simp [lifeOf, Memory.setProc]
  · cases ran

theorem runWait_effect {havekids : Bool} (occupancy : Occupancy k)
    (top : k.stack (k.thread c) = .wait slot havekids :: rest)
    (ran : runWait k c (k.thread c) rest ok slot havekids = some k') : Effect k c k' := by
  have active := occupancy.active_of_top top (by simp) (by simp)
  have moves : ∀ (new : List Frame) (holder : Option CpuId), new.all Frame.plain = true →
      Effect k c ({ k with waitLock := holder }.goto (k.thread c) (new ++ rest)) :=
    fun new holder plain =>
      .move new occupancy top rfl plain (by simp) (by simp) (.refl _) rfl rfl
        (fun _ => .inl rfl) rfl
  obtain ⟨p, own, ran⟩ := Option.bind_eq_some_iff.mp ran
  split at ran
  · rename_i inTable
    dsimp only at ran
    split at ran
    · split at ran
      · rename_i free
        split at ran
        · rename_i isZombie
          split at ran
          · cases ran
            obtain ⟨load, stacked⟩ := occupancy.replaceTop top rfl [] rfl
            refine .reap ⟨slot, inTable⟩ rest (.setProc _ _ _) ?_ rfl rfl rfl free rfl load
              stacked active (.of_top top (by simp)) isZombie
            simp [lifeOf, Memory.setProc, freeproc]
          · cases ran
            exact moves [] none rfl
        · cases ran
          exact moves [.wait (slot + 1) true] k.waitLock rfl
      · cases ran
    · cases ran
      exact moves [.wait (slot + 1) havekids] k.waitLock rfl
  · split at ran
    · split at ran
      · cases ran
        exact moves [] none rfl
      · cases ran
        exact moves [.sleep (some (.proc p)) .waitLock, .wait 0 false] k.waitLock rfl
    · cases ran

theorem exitFrames_stacked (status : Int) : WellStacked (exitFrames status) := by
  simp [WellStacked, exitFrames, Frame.atBottom]

theorem runUsertrap_effect (occupancy : Occupancy k)
    (top : k.stack (k.thread c) = .usertrap :: rest)
    (ran : runUsertrap k c (k.thread c) rest = some k') : Effect k c k' := by
  have active := occupancy.active_of_top top (by simp) (by simp)
  obtain ⟨p, own, ran⟩ := Option.bind_eq_some_iff.mp ran
  have stacked := occupancy.stacked (k.thread c)
  rw [top] at stacked
  have nothing : rest = [] := stacked.nothing_below rfl
  subst nothing
  split at ran
  · split at ran
    · split at ran
      · cases ran
      · cases ran
        refine .control (exitFrames (-1)) (.refl _) rfl rfl (fun _ => .inl rfl) rfl ?_
          (exitFrames_stacked _) active (.of_top top (by simp))
        rw [top]
        exact SameLoad.swap [.usertrap] (exitFrames (-1)) [] rfl rfl
    · cases ran
      rw [thread_of_current own] at top ⊢
      refine .charge p [] (.setProc _ _ _) ?_ top rfl own rfl rfl rfl active
      simp [lifeOf, Memory.setProc]
  · cases ran

theorem runKerneltrap_effect (occupancy : Occupancy k)
    (top : k.stack (k.thread c) = .kerneltrap :: rest)
    (ran : runKerneltrap k c (k.thread c) rest = some k') : Effect k c k' := by
  have moves := Effect.goto occupancy top rfl (by simp) (by simp)
  unfold runKerneltrap at ran
  split at ran
  · cases ran
    exact moves [.trapret] rfl
  · split at ran
    · cases ran
      exact moves [.yield, .trapret] rfl
    · cases ran
      exact moves [.trapret] rfl

theorem runRetrieved_effect (occupancy : Occupancy k)
    (runnable : (k.memory.proc p).state = .RUNNABLE)
    (top : k.stack (k.thread c) = .run p :: rest)
    (ran : runRetrieved k c (k.thread c) rest p = some k') : Effect k c k' := by
  have active := occupancy.active_of_top top (by simp) (by simp)
  unfold runRetrieved at ran
  split at ran
  · rename_i free
    cases ran
    refine .start p rest (.setProc _ _ _) ?_ top rfl rfl free rfl rfl runnable active
    simp [lifeOf, Memory.setProc]
  · cases ran

theorem runUserinit_effect (occupancy : Occupancy k)
    (top : k.stack (k.thread c) = .userinit :: rest)
    (ran : runUserinit k c (k.thread c) rest = some k') : Effect k c k' := by
  have active := occupancy.active_of_top top (by simp) (by simp)
  obtain ⟨p, found, ran⟩ := Option.bind_eq_some_iff.mp ran
  have unused : (k.memory.proc p).state = .UNUSED := by simpa using List.find?_some found
  split at ran
  · rename_i free
    cases ran
    exact .userinit p rest rfl top rfl rfl free rfl rfl active unused
  · cases ran

theorem schedule_effect (idle : k.current c = none) (empty : k.stack (.inr c) = [])
    (ran : schedule k c = some k') : Effect k c k' := by
  obtain ⟨⟨memory, found⟩, retrieved, ran⟩ := Option.bind_eq_some_iff.mp ran
  cases found with
  | none =>
      cases ran
      refine .retrieve none retrieved empty ?_ idle rfl rfl rfl
      simp [← empty]
  | some p =>
      cases ran
      exact .retrieve (some p) retrieved empty rfl idle rfl rfl rfl

theorem execute_effect (occupancy : Occupancy k)
    (retrieved : ∀ p, frame = .run p → (k.memory.proc p).state = .RUNNABLE)
    (top : k.stack (k.thread c) = frame :: rest)
    (ran : execute k c (k.thread c) ok frame rest = some k') : Effect k c k' := by
  cases frame with
  | insert p => exact runInsert_effect top ran
  | release p => exact runRelease_effect occupancy top rfl (by simp) (by simp) ran
  | sched => exact runSched_effect top ran
  | yield => exact runYield_effect occupancy top ran
  | sleep chan lk => exact runSleep_effect occupancy top ran
  | tidyUp => exact runTidyUp_effect occupancy top ran
  | wakeup chan slot => exact runWakeup_effect occupancy top ran
  | kill pid slot => exact runKill_effect occupancy top ran
  | allocproc slot => exact runAllocproc_effect occupancy top ran
  | forkParent np => exact runForkParent_effect occupancy top ran
  | forkRunnable np => exact runForkRunnable_effect occupancy top ran
  | acquireWait => exact runAcquireWait_effect occupancy top ran
  | reparent slot => exact runReparent_effect occupancy top ran
  | wakeParent => exact runWakeParent_effect occupancy top ran
  | zombie status => exact runZombie_effect occupancy top ran
  | wait slot havekids => exact runWait_effect occupancy top ran
  | usertrap => exact runUsertrap_effect occupancy top ran
  | kerneltrap => exact runKerneltrap_effect occupancy top ran
  | trapret =>
      cases ran
      exact Effect.goto occupancy top rfl (by simp) (by simp) [] rfl
  | run p => exact runRetrieved_effect occupancy (retrieved p rfl) top ran
  | switchedBack p => exact runRelease_effect occupancy top rfl (by simp) (by simp) ran
  | userinit => exact runUserinit_effect occupancy top ran

theorem Request.frames_spec {frames : List Frame} (isFrames : request.frames k c p = some frames) :
    frames.all Frame.light = true ∧ WellStacked frames := by
  cases request with
  | exit status =>
      dsimp only [Request.frames] at isFrames
      split at isFrames
      · cases isFrames
      · cases isFrames
        exact ⟨rfl, exitFrames_stacked status⟩
  | timer =>
      cases isFrames
      unfold clockintr
      split
      · exact ⟨rfl, by simp [WellStacked, Frame.atBottom]⟩
      · exact ⟨rfl, by simp [WellStacked]⟩
  | wait =>
      cases isFrames
      exact ⟨rfl, by simp [WellStacked, Frame.atBottom]⟩
  | device chan =>
      cases isFrames
      exact ⟨rfl, by simp [WellStacked, Frame.atBottom]⟩
  | fork =>
      cases isFrames
      exact ⟨rfl, List.pairwise_singleton _ _⟩
  | kill pid =>
      cases isFrames
      exact ⟨rfl, List.pairwise_singleton _ _⟩
  | sleep chan =>
      cases isFrames
      exact ⟨rfl, List.pairwise_singleton _ _⟩
  | wakeup chan =>
      cases isFrames
      exact ⟨rfl, List.pairwise_singleton _ _⟩

theorem request_effect (occupancy : Occupancy k) (own : k.current c = some p)
    (empty : k.stack (k.thread c) = [])
    (ran : (request.frames k c p).map (k.goto (.inl p)) = some k') : Effect k c k' := by
  obtain ⟨frames, isFrames, isNext⟩ := Option.map_eq_some_iff.mp ran
  cases isNext
  obtain ⟨light, stacked⟩ := Request.frames_spec isFrames
  have active : Active k c := by
    refine occupancy.active fun q leaving => ?_
    rw [empty] at leaving
    rcases leaving with ⟨_, impossible⟩ | ⟨_, impossible⟩ <;> cases impossible
  refine .control frames (.refl _) (by rw [thread_of_current own]; rfl) rfl
    (fun _ => .inl rfl) rfl ?_ stacked active ?_
  · have swapped := SameLoad.swap [] frames [] rfl light
    rw [List.append_nil, List.append_nil] at swapped
    rw [empty]
    exact swapped
  · intro q below isYield _
    rw [empty] at isYield
    cases isYield

theorem interrupt_effect {interrupt : Interrupt} (occupancy : Occupancy k)
    (interruptible : k.Interruptible c) :
    Effect k c (k.goto (k.thread c) (interrupt.frames c ++ k.stack (k.thread c))) := by
  obtain ⟨noLock, _, noTrap⟩ := interruptible
  have plain : (interrupt.frames c).all Frame.plain = true := by
    cases interrupt with
    | timer =>
        dsimp only [Interrupt.frames, clockintr]
        split <;> rfl
    | device chan => rfl
  have each : ∀ frame ∈ interrupt.frames c, frame.light = true ∧ frame.atBottom = false := by
    simpa [Frame.plain] using plain
  have active : Active k c := by
    intro p own
    rcases occupancy.running c p own with isRunning | ⟨held, _⟩
    · exact isRunning
    · exact absurd held (noLock p)
  refine .control _ (.refl _) rfl rfl (fun _ => .inl rfl) rfl ?_
    ((occupancy.stacked _).push _ ?_) active ?_
  · exact SameLoad.swap [] _ _ rfl (List.all_eq_true.mpr fun other member =>
      (each other member).1)
  · simpa using fun other member => (each other member).2
  · intro p below isYield _
    -- A handler that is about to check the slice cannot be interrupted.
    have inHandler : Frame.trapret ∈ k.stack (k.thread c) := by simp [isYield]
    exact absurd (noTrap _ inHandler) (by simp [Frame.inTrap])

/-- **What a step can do.** -/
theorem step_effect {choice : Choice} (occupancy : Occupancy k)
    (retrieved : ∀ p rest, k.stack (k.thread c) = .run p :: rest →
      (k.memory.proc p).state = .RUNNABLE)
    (stepped : step k c choice = some k') : Effect k c k' := by
  cases choice with
  | resume ok =>
      dsimp only [step] at stepped
      split at stepped
      · rename_i frame rest top
        exact execute_effect occupancy (fun p isRun => retrieved p rest (by rw [top, isRun]))
          top stepped
      · rename_i empty
        split at stepped
        · rename_i idle
          rw [thread_of_idle idle] at empty
          exact schedule_effect idle empty stepped
        · cases stepped
  | request request =>
      dsimp only [step] at stepped
      split at stepped
      · rename_i p own empty
        exact request_effect occupancy own empty stepped
      · cases stepped
  | interrupt interrupt =>
      dsimp only [step] at stepped
      split at stepped
      · rename_i interruptible
        cases stepped
        exact interrupt_effect occupancy interruptible
      · cases stepped

end Effects

end Xv6.Sched
