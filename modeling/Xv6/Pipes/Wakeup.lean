import Xv6.Pipes.Machine

/-!
Contract: who sleeps on a pipe has something to wait for.

A process that holds `pi->lock` may owe a wakeup for what it has changed; what it owes
follows from where it stands (`Owes`). It pays before it releases the lock, with one
exception: a writer that was killed in its copy loop leaves without
`wakeup(&pi->nread)`.

Owns: the debt at each point, that every step keeps it when no process is killed in
the copy loop of `pipewrite`, that then no sleeper is stranded, and a run in which one
is.
-/

namespace Xv6.Pipes

open Xv6.Kernel
open Xv6.Ring

namespace State

variable (s : State)

/-- Sleepers on `&pi->nread` find the pipe empty and its other end open. -/
def ReadersWait : Prop :=
  ∀ p, (s.thread p).chan? = some .nread → s.pipe.nread = s.pipe.nwrite ∧ s.pipe.writeopen = true

/-- Sleepers on `&pi->nwrite` find the pipe full and its other end open. -/
def WritersWait : Prop :=
  ∀ p, (s.thread p).chan? = some .nwrite →
    s.pipe.nwrite = s.pipe.nread + BitVec.ofNat 32 PIPESIZE ∧ s.pipe.readopen = true

def ReadersOpen : Prop := ∀ p, (s.thread p).chan? = some .nread → s.pipe.writeopen = true

def WritersOpen : Prop := ∀ p, (s.thread p).chan? = some .nwrite → s.pipe.readopen = true

end State

/-- What is true while `p` holds the lock at this point. -/
def Owes (s : State) (p : ProcId) : Thread → Prop
  | .writer _ .loop =>
      s.ReadersOpen ∧ (s.ReadersWait ∨ s.killed p = false ∧ s.pipe.readopen = true) ∧ s.WritersWait
  | .writer _ .body =>
      s.ReadersOpen ∧ s.killed p = false ∧ s.pipe.readopen = true ∧ s.WritersWait
  | .reader _ .loop => s.ReadersWait ∧ s.WritersWait
  | .reader _ .drowsy =>
      s.ReadersWait ∧ s.WritersWait ∧ s.pipe.nread = s.pipe.nwrite ∧ s.pipe.writeopen = true
  | .reader _ .copy => s.ReadersWait ∧ s.WritersOpen
  | _ => True

/-- The process that holds the lock stands where it is held. -/
def State.Holder (s : State) : Prop := ∀ p, (s.thread p).holds = true ↔ s.lock = some p

structure Settled (s : State) : Prop where
  holder : s.Holder
  free : s.lock = none → s.ReadersWait ∧ s.WritersWait
  held : ∀ p, s.lock = some p → Owes s p (s.thread p)

/-- In the loop of `pipewrite`. -/
def Thread.inCopyLoop : Thread → Bool
  | .writer _ .loop | .writer _ .body => true
  | _ => false

/-- No process is killed in the copy loop of `pipewrite`, where it holds the lock. -/
def KillsOutside (s : State) : Action → Prop
  | .kill p => (s.thread p).inCopyLoop = false
  | _ => True

instance (s : State) (action : Action) : Decidable (KillsOutside s action) := by
  unfold KillsOutside
  split <;> infer_instance

/-! ## The lock -/

section Lock

variable {s : State} {p : ProcId} {thread : Thread}

theorem Thread.holds_wake (thread : Thread) : thread.wake.holds = thread.holds := by
  cases thread with
  | idle result => rfl
  | writer w point => cases point <;> rfl
  | reader r point => cases point <;> rfl

theorem Thread.chan?_of_holds (holds : thread.holds = true) : thread.chan? = none := by
  cases thread with
  | idle result => rfl
  | writer w point => cases point <;> first | rfl | cases holds
  | reader r point => cases point <;> first | rfl | cases holds

theorem Thread.wake_of_holds (holds : thread.holds = true) : thread.wake = thread := by
  cases thread with
  | idle result => rfl
  | writer w point => cases point <;> first | rfl | cases holds
  | reader r point => cases point <;> first | rfl | cases holds

namespace State.Holder

theorem setThread (holder : s.Holder) (same : thread.holds = (s.thread p).holds) :
    (s.setThread p thread).Holder := by
  intro q
  by_cases isSet : q = p
  · subst isSet
    simp only [State.setThread, Function.update_self, same]
    exact holder q
  · simp only [State.setThread, Function.update_of_ne isSet]
    exact holder q

theorem enter (holder : s.Holder) (unlocked : s.lock = none) (holds : thread.holds = true) :
    (s.enter p thread).Holder := by
  intro q
  by_cases isSet : q = p
  · subst isSet
    simp [State.enter, State.setThread, holds]
  · have notHeld := holder q
    rw [unlocked] at notHeld
    simp only [State.enter, State.setThread, Function.update_of_ne isSet, notHeld]
    exact ⟨nofun, fun same => absurd (Option.some.inj same).symm isSet⟩

theorem leave (holder : s.Holder) (held : (s.thread p).holds = true)
    (released : thread.holds = false) : (s.leave p thread).Holder := by
  intro q
  have lock := (holder p).mp held
  by_cases isSet : q = p
  · subst isSet
    simp [State.leave, State.setThread, released]
  · have notHeld := holder q
    rw [lock] at notHeld
    simp only [State.leave, State.setThread, Function.update_of_ne isSet, notHeld]
    exact ⟨fun same => absurd (Option.some.inj same).symm isSet, nofun⟩

theorem wakeup (holder : s.Holder) (p : ProcId) (chan : Channel) : (s.wakeup p chan).Holder := by
  intro q
  dsimp only [State.wakeup]
  split
  · rw [Thread.holds_wake]
    exact holder q
  · exact holder q

end State.Holder

end Lock

/-! ## Sleepers -/

/-- No process has gone to sleep, and the pipe is as it was. -/
structure Calm (s s' : State) : Prop where
  pipe : s'.pipe = s.pipe
  asleep : ∀ q chan, (s'.thread q).chan? = some chan → (s.thread q).chan? = some chan

theorem Thread.chan?_wake (thread : Thread) : thread.wake.chan? = none := by
  cases thread with
  | idle result => rfl
  | writer w point => cases point <;> rfl
  | reader r point => cases point <;> rfl

namespace Calm

variable {s s' s'' : State} {p : ProcId} {thread : Thread}

theorem of_same (pipe : s'.pipe = s.pipe) (threads : s'.thread = s.thread) : Calm s s' :=
  ⟨pipe, fun q chan asleep => by rwa [threads] at asleep⟩

theorem trans (first : Calm s s') (second : Calm s' s'') : Calm s s'' where
  pipe := second.pipe.trans first.pipe
  asleep q chan asleep := first.asleep q chan (second.asleep q chan asleep)

theorem setThread (awake : thread.chan? = none) : Calm s (s.setThread p thread) := by
  refine ⟨rfl, fun q chan asleep => ?_⟩
  by_cases isSet : q = p
  · subst isSet
    rw [State.thread_setThread_self, awake] at asleep
    cases asleep
  · rwa [State.thread_setThread_of_ne isSet] at asleep

theorem wakeup (s : State) (p : ProcId) (chan : Channel) : Calm s (s.wakeup p chan) := by
  refine ⟨rfl, fun q other asleep => ?_⟩
  dsimp only [State.wakeup] at asleep
  split at asleep
  · rw [Thread.chan?_wake] at asleep
    cases asleep
  · exact asleep

theorem readersWait (calm : Calm s s') (wait : s.ReadersWait) : s'.ReadersWait := by
  intro q asleep
  rw [calm.pipe]
  exact wait q (calm.asleep q _ asleep)

theorem writersWait (calm : Calm s s') (wait : s.WritersWait) : s'.WritersWait := by
  intro q asleep
  rw [calm.pipe]
  exact wait q (calm.asleep q _ asleep)

theorem readersOpen (calm : Calm s s') (isOpen : s.ReadersOpen) : s'.ReadersOpen := by
  intro q asleep
  rw [calm.pipe]
  exact isOpen q (calm.asleep q _ asleep)

theorem writersOpen (calm : Calm s s') (isOpen : s.WritersOpen) : s'.WritersOpen := by
  intro q asleep
  rw [calm.pipe]
  exact isOpen q (calm.asleep q _ asleep)

theorem owes (calm : Calm s s') (sameKilled : thread.inCopyLoop = true → s'.killed p = s.killed p)
    (owes : Owes s p thread) : Owes s' p thread := by
  cases thread with
  | idle result => trivial
  | writer w point =>
      cases point with
      | acquire => trivial
      | asleep => trivial
      | loop =>
          obtain ⟨readers, debt, writers⟩ := owes
          refine ⟨calm.readersOpen readers, ?_, calm.writersWait writers⟩
          rw [sameKilled rfl, calm.pipe]
          exact debt.imp_left calm.readersWait
      | body =>
          obtain ⟨readers, alive, isOpen, writers⟩ := owes
          refine ⟨calm.readersOpen readers, ?_, ?_, calm.writersWait writers⟩
          · rw [sameKilled rfl]
            exact alive
          · rw [calm.pipe]
            exact isOpen
  | reader r point =>
      cases point with
      | acquire => trivial
      | asleep => trivial
      | loop => exact ⟨calm.readersWait owes.1, calm.writersWait owes.2⟩
      | drowsy =>
          obtain ⟨readers, writers, isEmpty, isOpen⟩ := owes
          refine ⟨calm.readersWait readers, calm.writersWait writers, ?_⟩
          rw [calm.pipe]
          exact ⟨isEmpty, isOpen⟩
      | copy => exact ⟨calm.readersWait owes.1, calm.writersOpen owes.2⟩

end Calm

/-- After `wakeup(chan)` nobody sleeps there, unless the caller does. -/
theorem chan?_wakeup {s : State} {p : ProcId} {chan : Channel}
    (awake : (s.thread p).chan? ≠ some chan) (q : ProcId) :
    ((s.wakeup p chan).thread q).chan? ≠ some chan := by
  dsimp only [State.wakeup]
  split
  · rw [Thread.chan?_wake]
    exact nofun
  · rename_i unchanged
    by_cases isCaller : q = p
    · rw [isCaller]
      exact awake
    · rw [not_and] at unchanged
      exact unchanged isCaller

/-! ## Steps -/

namespace Settled

variable {s s' : State} {p : ProcId} {thread : Thread}

theorem of_free (holder : s.Holder) (unlocked : s.lock = none) (readers : s.ReadersWait)
    (writers : s.WritersWait) : Settled s where
  holder := holder
  free _ := ⟨readers, writers⟩
  held q lock := by
    rw [unlocked] at lock
    cases lock

theorem of_held (holder : s.Holder) (lock : s.lock = some p) (owes : Owes s p (s.thread p)) :
    Settled s where
  holder := holder
  free unlocked := by
    rw [lock] at unlocked
    cases unlocked
  held q held := by
    rw [lock] at held
    cases held
    exact owes

theorem outside (settled : Settled s) (calm : Calm s s') (sameLock : s'.lock = s.lock)
    (holder : s'.Holder) (sameThread : ∀ q, (s.thread q).holds = true → s'.thread q = s.thread q)
    (sameKilled : ∀ q, (s.thread q).inCopyLoop = true → s'.killed q = s.killed q) : Settled s' where
  holder := holder
  free unlocked := by
    rw [sameLock] at unlocked
    exact (settled.free unlocked).imp calm.readersWait calm.writersWait
  held q lock := by
    rw [sameLock] at lock
    rw [sameThread q ((settled.holder q).mpr lock)]
    exact calm.owes (sameKilled q) (settled.held q lock)

theorem owes (settled : Settled s) (isThread : s.thread p = thread) (holds : thread.holds = true) :
    s.lock = some p ∧ Owes s p thread := by
  subst isThread
  have lock := (settled.holder p).mp holds
  exact ⟨lock, settled.held p lock⟩

theorem begin (settled : Settled s) {result : Int} (isIdle : s.thread p = .idle result)
    (awake : thread.chan? = none) (unlocked : thread.holds = false) :
    Settled (s.setThread p thread) := by
  refine settled.outside (.setThread awake) rfl (settled.holder.setThread ?_) ?_ fun _ _ => rfl
  · rw [isIdle, unlocked]
    rfl
  · intro q holds
    apply State.thread_setThread_of_ne
    intro isCaller
    rw [isCaller, isIdle] at holds
    cases holds

theorem kill (settled : Settled s) (outside : (s.thread p).inCopyLoop = false) :
    Settled (kill s p) := by
  have wake := Thread.chan?_wake (s.thread p)
  have flagged : Calm s { s with killed := Function.update s.killed p true } := .of_same rfl rfl
  refine settled.outside (flagged.trans (.setThread wake)) rfl ?_ ?_ ?_
  · exact settled.holder.setThread (Thread.holds_wake _)
  · intro q holds
    by_cases isVictim : q = p
    · subst isVictim
      rw [Pipes.kill, State.thread_setThread_self]
      exact Thread.wake_of_holds holds
    · exact State.thread_setThread_of_ne isVictim
  · intro q inLoop
    apply Function.update_of_ne
    intro isVictim
    rw [isVictim, outside] at inLoop
    cases inLoop

/-- The end of a pipe is closed: those who wait for it to do something wake up. -/
theorem pipeclose (settled : Settled s) (unlocked : s.lock = none) (writable : Bool) {result : Int}
    (isIdle : s.thread p = .idle result) : Settled (pipeclose s p writable) := by
  obtain ⟨readers, writers⟩ := settled.free unlocked
  have awake : ∀ chan, (s.thread p).chan? ≠ some chan := by
    intro chan
    rw [isIdle]
    exact nofun
  cases writable with
  | false =>
      refine of_free (settled.holder.wakeup p .nwrite) unlocked ?_ ?_
      · intro q asleep
        exact readers q ((Calm.wakeup s p .nwrite).asleep q _ asleep)
      · intro q asleep
        exact absurd asleep (chan?_wakeup (awake .nwrite) q)
  | true =>
      refine of_free (settled.holder.wakeup p .nread) unlocked ?_ ?_
      · intro q asleep
        exact absurd asleep (chan?_wakeup (awake .nread) q)
      · intro q asleep
        exact writers q ((Calm.wakeup s p .nread).asleep q _ asleep)

theorem enter (settled : Settled s) (unlocked : s.lock = none) (holds : thread.holds = true)
    (awake : thread.chan? = none)
    (owes : (s.enter p thread).ReadersWait → (s.enter p thread).WritersWait →
      Owes (s.enter p thread) p thread) : Settled (s.enter p thread) := by
  obtain ⟨readers, writers⟩ := settled.free unlocked
  have locked : Calm s { s with lock := some p } := .of_same rfl rfl
  have calm : Calm s (s.enter p thread) := locked.trans (.setThread awake)
  refine of_held (settled.holder.enter unlocked holds) rfl ?_
  rw [State.enter, State.thread_setThread_self]
  exact owes (calm.readersWait readers) (calm.writersWait writers)

theorem goOn (settled : Settled s) (held : (s.thread p).holds = true) (holds : thread.holds = true)
    (owes : Owes (s.setThread p thread) p thread) : Settled (s.setThread p thread) := by
  refine of_held (settled.holder.setThread (by rw [held, holds])) ((settled.holder p).mp held) ?_
  rw [State.thread_setThread_self]
  exact owes

theorem leave (settled : Settled s) (held : (s.thread p).holds = true)
    (released : thread.holds = false) (readers : (s.leave p thread).ReadersWait)
    (writers : (s.leave p thread).WritersWait) : Settled (s.leave p thread) :=
  of_free (settled.holder.leave held released) rfl readers writers

theorem calm_leave (s : State) (p : ProcId) (awake : thread.chan? = none) :
    Calm s (s.leave p thread) := by
  have released : Calm s { s with lock := none } := .of_same rfl rfl
  exact released.trans (.setThread awake)

/-- The lock is released after `wakeup(chan)`; who sleeps there has just gone to
sleep. -/
theorem leave_wakeup (holder : s.Holder) (held : (s.thread p).holds = true) (chan : Channel)
    (released : thread.holds = false)
    (readers : ((s.wakeup p chan).leave p thread).ReadersWait)
    (writers : ((s.wakeup p chan).leave p thread).WritersWait) :
    Settled ((s.wakeup p chan).leave p thread) := by
  refine of_free ((holder.wakeup p chan).leave ?_ released) rfl readers writers
  rw [State.thread_wakeup_self]
  exact held

theorem chan?_leave_wakeup (held : (s.thread p).holds = true) {chan : Channel}
    (other : thread.chan? ≠ some chan) (q : ProcId) :
    (((s.wakeup p chan).leave p thread).thread q).chan? ≠ some chan := by
  by_cases isCaller : q = p
  · rw [isCaller, State.leave, State.thread_setThread_self]
    exact other
  · rw [State.leave, State.thread_setThread_of_ne isCaller]
    apply chan?_wakeup
    rw [Thread.chan?_of_holds held]
    exact nofun

/-- A writer that queued a byte owes a wakeup, and is alive to pay it. -/
theorem put (settled : Settled s) {w : Writing} (isWriter : s.thread p = .writer w .body)
    (room : s.pipe.nwrite ≠ s.pipe.nread + BitVec.ofNat 32 PIPESIZE) (ch : Format.Byte) :
    Settled (s.put p w ch) := by
  obtain ⟨lock, readers, alive, isOpen, writers⟩ := settled.owes isWriter rfl
  have calm : Calm s (s.setThread p (.writer { w with i := w.i + 1 } .loop)) := .setThread rfl
  refine of_held ?_ lock ?_
  · exact settled.holder.setThread (by rw [isWriter]; rfl)
  · rw [State.put, State.thread_setThread_self]
    refine ⟨fun q asleep => ?_, .inr ⟨alive, isOpen⟩, fun q asleep => ?_⟩
    · exact readers q (calm.asleep q _ asleep)
    · exact absurd (writers q (calm.asleep q _ asleep)).1 room

theorem take (settled : Settled s) {r : Reading} (isReader : s.thread p = .reader r .copy)
    (nonempty : s.pipe.nread ≠ s.pipe.nwrite) (space : Space) (ch : Format.Byte) :
    Settled (s.drop.deliver p r space ch) := by
  obtain ⟨lock, readers, writers⟩ := settled.owes isReader rfl
  have calm : Calm s (s.setThread p (.reader { r with space, i := r.i + 1 } .copy)) :=
    .setThread rfl
  refine of_held ?_ lock ?_
  · exact settled.holder.setThread (by rw [isReader]; rfl)
  · rw [State.deliver, State.thread_setThread_self]
    refine ⟨fun q asleep => ?_, fun q asleep => ?_⟩
    · exact absurd (readers q (calm.asleep q _ asleep)).1 nonempty
    · exact writers q (calm.asleep q _ asleep)

/-- **Every step pays what it owes** before the lock is released, when no process is
killed in its copy loop. -/
theorem step (settled : Settled s) {action : Action} (allowed : KillsOutside s action)
    (stepped : step s action = some s') : Settled s' := by
  cases Stepped.of_step stepped with
  | @write p request result isIdle =>
      have listed : Settled { s with writes := s.writes ++ [request] } :=
        settled.outside (.of_same rfl rfl) rfl settled.holder (fun _ _ => rfl) fun _ _ => rfl
      exact listed.begin isIdle rfl rfl
  | read isIdle => exact settled.begin isIdle rfl rfl
  | close isIdle unlocked => exact settled.pipeclose unlocked _ isIdle
  | kill => exact settled.kill allowed
  | freeproc isIdle =>
      refine settled.outside (.of_same rfl rfl) rfl settled.holder (fun _ _ => rfl) ?_
      intro q inLoop
      apply Function.update_of_ne
      intro isFreed
      rw [isFreed, isIdle] at inLoop
      cases inLoop
  | writerEnter _ unlocked =>
      exact settled.enter unlocked rfl rfl fun readers writers =>
        ⟨fun q asleep => (readers q asleep).2, .inl readers, writers⟩
  | @writerQuit p w isWriter cause =>
      obtain ⟨_, _, debt, writers⟩ := settled.owes isWriter rfl
      have readers : s.ReadersWait := by
        rcases debt with wait | ⟨alive, isOpen⟩
        · exact wait
        · rcases cause with isClosed | killed
          · rw [isOpen] at isClosed
            cases isClosed
          · rw [alive] at killed
            cases killed
      have calm : Calm s (s.leave p (.idle (-1))) := calm_leave s p rfl
      exact settled.leave (by rw [isWriter]; rfl) rfl (calm.readersWait readers)
        (calm.writersWait writers)
  | @writerBody p w isWriter _ isOpen alive =>
      obtain ⟨_, readers, _, writers⟩ := settled.owes isWriter rfl
      have calm : Calm s (s.setThread p (.writer w .body)) := .setThread rfl
      exact settled.goOn (by rw [isWriter]; rfl) rfl
        ⟨calm.readersOpen readers, alive, isOpen, calm.writersWait writers⟩
  | writerPut isWriter room => exact settled.put isWriter room _
  | @writerSleep p w isWriter full =>
      obtain ⟨_, _, _, isOpen, _⟩ := settled.owes isWriter rfl
      have held : (s.thread p).holds = true := by
        rw [isWriter]
        rfl
      refine leave_wakeup settled.holder held .nread rfl (fun q asleep => ?_) fun q _ => ?_
      · exact absurd asleep (chan?_leave_wakeup held (by exact nofun) q)
      · exact ⟨full, isOpen⟩
  | @writerDone p w point isWriter held =>
      have writers : s.WritersWait := by
        have owed := (settled.owes rfl held).2
        rw [isWriter] at owed held
        cases point with
        | loop => exact owed.2.2
        | body => exact owed.2.2.2
        | _ => cases held
      have calm : Calm s ((s.wakeup p .nread).leave p (.idle w.i)) :=
        (Calm.wakeup s p .nread).trans (calm_leave _ _ rfl)
      refine leave_wakeup settled.holder held .nread rfl (fun q asleep => ?_)
        (calm.writersWait writers)
      exact absurd asleep (chan?_leave_wakeup held (by exact nofun) q)
  | readerEnter _ unlocked =>
      exact settled.enter unlocked rfl rfl fun readers writers => ⟨readers, writers⟩
  | @readerQuit p r isReader =>
      obtain ⟨_, readers, writers⟩ := settled.owes isReader rfl
      have calm : Calm s (s.leave p (.idle (-1))) := calm_leave s p rfl
      exact settled.leave (by rw [isReader]; rfl) rfl (calm.readersWait readers)
        (calm.writersWait writers)
  | @readerDrowsy p r isReader isEmpty isOpen =>
      obtain ⟨_, readers, writers⟩ := settled.owes isReader rfl
      have calm : Calm s (s.setThread p (.reader r .drowsy)) := .setThread rfl
      exact settled.goOn (by rw [isReader]; rfl) rfl
        ⟨calm.readersWait readers, calm.writersWait writers, isEmpty, isOpen⟩
  | @readerSleep p r isReader =>
      obtain ⟨_, _, writers, isEmpty, isOpen⟩ := settled.owes isReader rfl
      refine settled.leave (by rw [isReader]; rfl) rfl (fun q _ => ⟨isEmpty, isOpen⟩)
        fun q asleep => ?_
      by_cases isCaller : q = p
      · rw [isCaller, State.leave, State.thread_setThread_self] at asleep
        cases asleep
      · rw [State.leave, State.thread_setThread_of_ne isCaller] at asleep
        exact writers q asleep
  | @readerCopy p r isReader =>
      obtain ⟨_, readers, writers⟩ := settled.owes isReader rfl
      have calm : Calm s (s.setThread p (.reader { r with i := 0 } .copy)) := .setThread rfl
      exact settled.goOn (by rw [isReader]; rfl) rfl
        ⟨calm.readersWait readers, fun q asleep => (calm.writersWait writers q asleep).2⟩
  | readerTake isReader nonempty _ => exact settled.take isReader nonempty _ _
  | @readerLose p r isReader _ nonempty _ =>
      obtain ⟨_, readers, _⟩ := settled.owes isReader rfl
      have held : (s.thread p).holds = true := by
        rw [isReader]
        rfl
      have calm : Calm s ((s.wakeup p .nwrite).leave p (.idle r.i)) :=
        (Calm.wakeup s p .nwrite).trans (calm_leave _ _ rfl)
      refine leave_wakeup (s := s.drop) settled.holder held .nwrite rfl (fun q asleep => ?_)
        fun q asleep => ?_
      · exact absurd (readers q (calm.asleep q _ asleep)).1 nonempty
      · exact absurd asleep (chan?_leave_wakeup (s := s.drop) held (by exact nofun) q)
  | @readerDone p r isReader =>
      obtain ⟨_, readers, _⟩ := settled.owes isReader rfl
      have held : (s.thread p).holds = true := by
        rw [isReader]
        rfl
      have calm : Calm s ((s.wakeup p .nwrite).leave p (.idle r.i)) :=
        (Calm.wakeup s p .nwrite).trans (calm_leave _ _ rfl)
      refine leave_wakeup settled.holder held .nwrite rfl (calm.readersWait readers)
        fun q asleep => ?_
      exact absurd asleep (chan?_leave_wakeup held (by exact nofun) q)

theorem pipealloc (data : Fin PIPESIZE → Format.Byte) : Settled (pipealloc data) :=
  of_free (fun _ => ⟨nofun, nofun⟩) rfl (fun _ => nofun) fun _ => nofun

end Settled

/-! ## Runs -/

/-- **No stranded sleepers.** In every run in which no process is killed in the copy
loop of `pipewrite`, whenever the lock is free, a process sleeps on `&pi->nread` only
while the pipe is empty and can still be written, and on `&pi->nwrite` only while it is
full and can still be read. -/
theorem no_stranded_sleepers {data : Fin PIPESIZE → Format.Byte} {s : State}
    (reachable : Reachable KillsOutside data s) (unlocked : s.lock = none) (p : ProcId) :
    ((s.thread p).chan? = some .nread →
      s.pipe.nread = s.pipe.nwrite ∧ s.pipe.writeopen = true) ∧
    ((s.thread p).chan? = some .nwrite →
      s.pipe.nwrite = s.pipe.nread + BitVec.ofNat 32 PIPESIZE ∧ s.pipe.readopen = true) := by
  have settled : Settled s := reachable.invariant (.pipealloc data)
    fun _ _ _ settled allowed stepped => settled.step allowed stepped
  obtain ⟨readers, writers⟩ := settled.free unlocked
  exact ⟨readers p, writers p⟩

/-- A reader sleeps on an empty pipe and a writer is killed before it enters its loop;
the writer leaves without a byte, and the reader still has nothing to read. -/
theorem no_stranded_sleepers_killed : ∃ s : State, Reachable KillsOutside (fun _ => 0) s ∧
    s.lock = none ∧ (s.thread 0).chan? = some .nread ∧ s.killed 1 = true ∧
    s.pipe.nread = s.pipe.nwrite := by
  obtain ⟨s, reachable, unlocked, asleep, killed⟩ := Runs.exists_of_follow step KillsOutside
    (pipealloc fun _ => 0)
    [.read 0 ⟨⟨fun _ => true, fun _ => 0⟩, 0, 1⟩, .run 0, .run 0, .run 0,
      .write 1 ⟨⟨fun _ => true, fun _ => 0⟩, 0, 2⟩, .kill 1, .run 1, .run 1]
    (fun s => s.lock = none ∧ (s.thread 0).chan? = some .nread ∧ s.killed 1 = true)
    (by decide +kernel)
  exact ⟨s, reachable, unlocked, asleep, killed,
    ((no_stranded_sleepers reachable unlocked 0).1 asleep).1⟩

/-- A reader sleeps on the empty pipe; a writer queues a byte and is killed before it
comes to the second one. It returns -1 without a wakeup. -/
theorem killed_writer_strands_reader : ∃ s : State,
    Reachable (fun _ _ => True) (fun _ => 0) s ∧ s.lock = none ∧
    (s.thread 0).chan? = some .nread ∧ s.pipe.nread ≠ s.pipe.nwrite := by
  obtain ⟨s, reachable, unlocked, asleep, nonempty⟩ := Runs.exists_of_follow step
    (fun _ _ => True) (pipealloc fun _ => 0)
    [.read 0 ⟨⟨fun _ => true, fun _ => 0⟩, 0, 1⟩, .run 0, .run 0, .run 0,
      .write 1 ⟨⟨fun _ => true, fun _ => 0⟩, 0, 2⟩, .run 1, .run 1, .run 1, .kill 1, .run 1]
    (fun s => s.lock = none ∧ (s.thread 0).chan? = some .nread ∧ s.pipe.nread ≠ s.pipe.nwrite)
    (by decide +kernel)
  exact ⟨s, reachable, unlocked, asleep, nonempty⟩

end Xv6.Pipes
