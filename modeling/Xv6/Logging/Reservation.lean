import Xv6.Logging.Protocol

/-!
Contract: how much log space `begin_op` reserves, and whether it suffices.

Owns: callers that log at most `MAXOPBLOCKS` different blocks in an operation
(`Modest`), the invariant that the blocks in the header and those the operations
in progress may still add fit `LOGSIZE` (`Reserved`), and when `log_write` refuses
a block although it was reserved: its test compares with `log.size - 1`, which is
one less than `LOGSIZE` on a disk made by `mkfs`, and is made before absorption.
-/

namespace Xv6.Logging

open Xv6.Kernel
open Xv6.Threads

variable {P : Type} [DecidableEq P] [Fintype P]

omit [DecidableEq P] [Fintype P] in
/-- No operation logs more than `MAXOPBLOCKS` different blocks. -/
def Modest (s : State P) : Action P → Prop
  | .logWrite p blockno _ =>
      match s.work p with
      | some (.op _ logged) => (absorb blockno logged).length ≤ MAXOPBLOCKS
      | _ => True
  | _ => True

instance (s : State P) : (action : Action P) → Decidable (Modest s action)
  | .logWrite p blockno _ =>
      match isWork : s.work p with
      | some (.op _ logged) => decidable_of_iff ((absorb blockno logged).length ≤ MAXOPBLOCKS)
          (by simp [Modest, isWork])
      | some (.commit ..) | none => .isTrue (by simp [Modest, isWork])
  | .beginOp .. | .endOp .. | .commit .. | .recycle .. | .crash | .recover =>
      .isTrue trivial

/-- The blocks the operation may still add. -/
def Work.reserved : Work → Nat
  | .op _ logged => MAXOPBLOCKS - logged.length
  | .commit _ => 0

structure Reserved (s : State P) : Prop where
  room : s.recovery = none → s.log.lh.length + countAll Work.reserved s.stack ≤ LOGSIZE
  fits : s.recovery = none → s.log.lh.length ≤ s.log.size - 1
  own : ∀ p op logged, s.work p = some (.op op logged) → ∀ b ∈ logged, b ∈ s.log.lh

section Steps

variable {s s' : State P} {p : P} {op : Nat} {logged : List Nat} {point : Point} {log : Log}

theorem Work.reserved_le (work : Work) : work.reserved ≤ MAXOPBLOCKS * work.ops := by
  cases work with
  | op op logged =>
      rw [Work.reserved, Work.ops, Nat.mul_one]
      exact Nat.sub_le ..
  | commit point => exact Nat.zero_le _

omit [DecidableEq P] in
/-- The operations in progress reserve at most `MAXOPBLOCKS` blocks each. -/
theorem Orderly.reserved_le (orderly : Orderly s) :
    (countAll Work.reserved s.stack : Int) ≤ MAXOPBLOCKS * s.log.outstanding := by
  rw [orderly.outstanding]
  exact_mod_cast countAll_le_mul Work.reserved_le s.stack

theorem Reserved.move (reserved : Reserved s) (running : s.recovery = none)
    (others : ∀ q, q ≠ p → s'.work q = s.work q)
    (room : s'.log.lh.length + countIn Work.reserved (s'.stack p) ≤
        s.log.lh.length + countIn Work.reserved (s.stack p) ∨
      s'.log.lh.length + countIn Work.reserved (s'.stack p) + MAXOPBLOCKS * s.log.outstanding ≤
        (LOGSIZE : Int))
    (orderly : Orderly s) (fits : s'.log.lh.length ≤ s'.log.size - 1)
    (own : ∀ op logged, s'.work p = some (.op op logged) → ∀ b ∈ logged, b ∈ s'.log.lh)
    (kept : (∃ q op logged, q ≠ p ∧ s.work q = some (.op op logged)) →
      ∀ b ∈ s.log.lh, b ∈ s'.log.lh) : Reserved s' := by
  have counts := countAll_setWork Work.reserved others
  have before := reserved.room running
  have bound := orderly.reserved_le
  refine ⟨fun _ => ?_, fun _ => fits, ?_⟩
  · rcases room with smaller | enough
    · omega
    · omega
  · intro q op logged isOp b member
    by_cases same : q = p
    · rw [same] at isOp
      exact own op logged isOp b member
    · rw [others q same] at isOp
      exact kept ⟨q, op, logged, same, isOp⟩ b (reserved.own q op logged isOp b member)

/-- What the test of `begin_op` reserves covers the new operation and all others. -/
theorem Reserved.beginOp (reserved : Reserved s) (orderly : Orderly s) (running : s.recovery = none)
    (began : beginOp s.log = some log) :
    Reserved ({ s with log, nextOp := s.nextOp + 1 }.setWork p (some (.op s.nextOp []))) := by
  obtain ⟨_, enough, rfl⟩ := beginOp_eq began
  refine reserved.move running (State.setWork_others _ _) (.inr ?_) orderly
    (reserved.fits running) ?_
    fun _ _ => id
  · rw [State.stack_of_work (State.setWork_own _ _)]
    simp only [Option.toList_some, countIn_cons, countIn_nil, Work.reserved, List.length_nil]
    show (s.log.lh.length : Int) + _ + _ ≤ _
    rw [Int.add_mul, Int.mul_comm] at enough
    omega
  · intro op logged isOp b member
    rw [State.setWork_own] at isOp
    cases isOp
    cases member

/-- A block new to the header is new to the operation, which uses up part of its
reservation. -/
theorem Reserved.logWrite {blockno : Nat} {data : Block} {store : Store} (reserved : Reserved s)
    (orderly : Orderly s) (isOp : s.work p = some (.op op logged))
    (modest : (absorb blockno logged).length ≤ MAXOPBLOCKS)
    (wrote : logWrite s.log blockno = .ok log) :
    Reserved ({ s with
      log
      store
      pending := s.pending ++ [Update.mk op blockno data] }.setWork p
        (some (.op op (absorb blockno logged)))) := by
  obtain ⟨_, small, rfl⟩ := logWrite_eq wrote
  have running := orderly.running (p := p) (by simp [isOp])
  have inHeader := length_absorb blockno s.log.lh
  have inOwn := length_absorb blockno logged
  have fromOwn : blockno ∈ logged → blockno ∈ s.log.lh := reserved.own p op logged isOp blockno
  refine reserved.move running (State.setWork_others _ _) (.inl ?_) orderly ?_ ?_ ?_
  · rw [State.stack_of_work (State.setWork_own _ _), State.stack_of_work isOp]
    simp only [Option.toList_some, countIn_cons, countIn_nil, Work.reserved]
    show (absorb blockno s.log.lh).length + _ ≤ _
    by_cases isOwn : blockno ∈ logged
    · rw [if_pos isOwn] at inOwn
      rw [if_pos (fromOwn isOwn)] at inHeader
      omega
    · rw [if_neg isOwn] at inOwn
      split at inHeader <;> omega
  · show (absorb blockno s.log.lh).length ≤ s.log.size - 1
    split at inHeader <;> omega
  · intro op' logged' isOp' b member
    rw [State.setWork_own] at isOp'
    cases isOp'
    refine mem_absorb.mpr ((mem_absorb.mp member).imp_right ?_)
    exact reserved.own p op logged isOp b
  · intro _ b member
    exact mem_absorb.mpr (.inr member)

theorem Reserved.endOp {doCommit : Bool} (reserved : Reserved s) (orderly : Orderly s)
    (isOp : s.work p = some (.op op logged)) (ended : endOp s.log = .ok (log, doCommit)) :
    Reserved ({ s with log }.setWork p (if doCommit then some (.commit .start) else none)) := by
  obtain ⟨_, rfl, _⟩ := endOp_eq ended
  have running := orderly.running (p := p) (by simp [isOp])
  refine reserved.move running (State.setWork_others _ _) (.inl ?_) orderly
    (reserved.fits running) ?_ fun _ _ => id
  · rw [State.stack_of_work (State.setWork_own _ _)]
    cases doCommit <;> exact Nat.add_le_add_left (Nat.zero_le _) _
  · intro op' logged' isOp'
    rw [State.setWork_own] at isOp'
    cases doCommit <;> cases isOp'

/-- A step of the process that commits keeps the header or empties it. -/
theorem Reserved.commitMove {work : Option Work} (reserved : Reserved s) (orderly : Orderly s)
    (isCommit : s.work p = some (.commit point))
    (isWork : s'.work = Function.update s.work p work)
    (isNext : ∀ op logged, work ≠ some (.op op logged))
    (lh : s'.log.lh = s.log.lh ∨ s'.log.lh = []) (size : s'.log.size = s.log.size) :
    Reserved s' := by
  have running := orderly.running (p := p) (by simp [isCommit])
  obtain ⟨_, _, alone⟩ := orderly.of_commit isCommit
  have own : s'.work p = work := by rw [isWork, Function.update_self]
  have shorter : s'.log.lh.length ≤ s.log.lh.length := by
    rcases lh with same | empty
    · rw [same]
    · rw [empty]
      exact Nat.zero_le _
  have nothing : countIn Work.reserved (s'.stack p) = 0 := by
    rw [State.stack_of_work own]
    cases work with
    | none => rfl
    | some work =>
        cases work with
        | op op logged => exact absurd rfl (isNext op logged)
        | commit point => rfl
  refine reserved.move running (fun q different => by rw [isWork, Function.update_of_ne different])
    (.inl (by omega)) orderly ?_ ?_ ?_
  · rw [size]
    exact Nat.le_trans shorter (reserved.fits running)
  · intro op logged isOp
    rw [own] at isOp
    exact absurd isOp (isNext op logged)
  · rintro ⟨q, op, logged, different, isOp⟩
    rw [alone q different] at isOp
    cases isOp

theorem Reserved.commitStep (reserved : Reserved s) (orderly : Orderly s)
    (isCommit : s.work p = some (.commit point)) : Reserved (s.commitStep p point) := by
  cases point with
  | start => exact reserved.commitMove orderly isCommit rfl (by simp) (.inl rfl) rfl
  | writeLog tail =>
      dsimp only [State.commitStep]
      split
      · exact reserved.commitMove orderly isCommit rfl (by simp) (.inl rfl) rfl
      · exact reserved.commitMove orderly isCommit rfl (by simp) (.inl rfl) rfl
  | writeHead => exact reserved.commitMove orderly isCommit rfl (by simp) (.inl rfl) rfl
  | install tail =>
      dsimp only [State.commitStep]
      split
      · exact reserved.commitMove orderly isCommit rfl (by simp) (.inl rfl) rfl
      · exact reserved.commitMove orderly isCommit rfl (by simp) (.inr rfl) rfl
  | erase => exact reserved.commitMove orderly isCommit rfl (by simp) (.inl rfl) rfl
  | finish => exact reserved.commitMove orderly isCommit rfl (by simp) (.inl rfl) rfl

omit [DecidableEq P] in
theorem Reserved.of_idle (idle : ∀ p, s.work p = none)
    (empty : s.recovery = none → s.log.lh = []) : Reserved s := by
  have nothing : countAll Work.reserved s.stack = 0 :=
    countAll_eq_zero_iff.mpr fun p frame member => by
      rw [State.stack_of_work (idle p)] at member
      cases member
  refine ⟨fun running => ?_, fun running => ?_, fun p op logged isOp => ?_⟩
  · rw [empty running, nothing]
    decide
  · rw [empty running]
    exact Nat.zero_le _
  · rw [idle p] at isOp
    cases isOp

omit [DecidableEq P] in
theorem Reserved.recoverStep {recovery : Recovery} (orderly : Orderly s)
    (isRecovery : s.recovery = some recovery) : Reserved (s.recoverStep recovery) := by
  obtain ⟨_, idle⟩ := orderly.recovering (by simp [isRecovery])
  cases recovery with
  | readHead => exact .of_idle idle (by simp [State.recoverStep])
  | install tail =>
      dsimp only [State.recoverStep]
      split
      · exact .of_idle idle (by simp)
      · exact .of_idle idle (by simp)
  | erase => exact .of_idle idle fun _ => orderly.erased (.inl isRecovery)

theorem Reserved.step {action : Action P} (reserved : Reserved s) (orderly : Orderly s)
    (modest : Modest s action) (stepped : step s action = some s') : Reserved s' := by
  cases Stepped.of_step stepped with
  | beginOp running free began => exact reserved.beginOp orderly running began
  | logWrite isOp wrote =>
      simp only [Modest, isOp] at modest
      exact reserved.logWrite orderly isOp modest wrote
  | endOp isOp ended => exact reserved.endOp orderly isOp ended
  | commit isCommit => exact reserved.commitStep orderly isCommit
  | recycle unlogged => exact ⟨reserved.room, reserved.fits, reserved.own⟩
  | crash => exact .of_idle (fun _ => rfl) (by simp [State.crash])
  | recover isRecovery => exact .recoverStep orderly isRecovery

theorem Reachable.reserved {disk : Nat → Block} {start size : Nat}
    (reachable : Reachable Modest (boot P disk start size) s) : Reserved s := by
  induction reachable with
  | start => exact .of_idle (fun _ => rfl) fun _ => rfl
  | step reachable modest stepped ih =>
      exact ih.step reachable.orderly modest stepped

end Steps

/-! ## Whether the reservation suffices -/

section Sufficiency

variable {disk : Nat → Block} {start : Nat} {s : State P}

omit [DecidableEq P] [Fintype P] in
/-- The different blocks logged since the last commit. -/
def State.loggedBlocks (s : State P) : Finset Nat := (s.pending.map Update.blockno).toFinset

/-- While an operation is in progress the header lists these blocks. -/
theorem Orderly.card_loggedBlocks {p : P} {op : Nat} {logged : List Nat} (orderly : Orderly s)
    (isOp : s.work p = some (.op op logged)) : s.loggedBlocks.card = s.log.lh.length := by
  have running := orderly.running (p := p) (by simp [isOp])
  have entries := orderly.entries running
    fun q point isCommit => absurd isCommit ((orderly.of_op isOp).2.2 q point)
  have same : s.loggedBlocks = s.log.lh.toFinset := by
    ext b
    rw [State.loggedBlocks, List.mem_toFinset, List.mem_toFinset, entries b]
  rw [same, List.toFinset_card_of_nodup (orderly.distinct running)]

/-- **Log space.** On a disk with `log.size = LOGSIZE`, with operations that log at
most `MAXOPBLOCKS` different blocks each: the header and what is still reserved
fit `LOGSIZE`, the header fits the on-disk log, and `log_write` accepts a block
exactly if fewer than `LOGSIZE - 1` different blocks have been logged since the
last commit. -/
theorem logWrite_accepts_iff (reachable : Reachable Modest (boot P disk start LOGSIZE) s) :
    (s.recovery = none → s.log.lh.length + countAll Work.reserved s.stack ≤ LOGSIZE ∧
        s.log.lh.length ≤ s.log.size - 1) ∧
      ∀ p op logged, s.work p = some (.op op logged) → ∀ b,
        logWrite s.log b ≠ .error .tooBig ↔ s.loggedBlocks.card < LOGSIZE - 1 := by
  have orderly := reachable.orderly
  have reserved := reachable.reserved
  refine ⟨fun running => ⟨reserved.room running, reserved.fits running⟩, ?_⟩
  intro p op logged isOp b
  have positive := (orderly.of_op isOp).1
  rw [orderly.card_loggedBlocks isOp, logWrite, reachable.geometry.2]
  by_cases small : s.log.lh.length < LOGSIZE - 1
  · rw [if_neg (by omega), if_neg (by omega)]
    simp [small]
  · rw [if_pos (by omega)]
    simpa using small

def logBlocks (p : P) (first count : Nat) : List (Action P) :=
  (List.range count).map fun i => .logWrite p (first + i) fun _ => 0

def fullSchedule (p q r : P) : List (Action P) :=
  [.recover, .recover, .recover, .beginOp p, .beginOp q, .beginOp r] ++
    logBlocks p 100 10 ++ logBlocks q 110 10 ++ logBlocks r 120 9

/-- The last of the 29 blocks is accepted. -/
theorem logWrite_accepts_iff_last : ∃ s : State (Fin 3),
    Reachable Modest (boot (Fin 3) (fun _ _ => 0) 2 LOGSIZE) s ∧
    s.work 2 = some (.op 2 ((List.range 8).map (120 + ·))) ∧ s.loggedBlocks.card = 28 ∧
    logWrite s.log 128 ≠ .error .tooBig := by
  obtain ⟨s, reachable, isOp, isCard⟩ := Reachable.exists_of_follow Modest
    (boot (Fin 3) (fun _ _ => 0) 2 LOGSIZE) (fullSchedule 0 1 2).dropLast
    (fun s => s.work 2 = some (.op 2 ((List.range 8).map (120 + ·))) ∧ s.loggedBlocks.card = 28)
    (by decide +kernel)
  have accepts := (logWrite_accepts_iff reachable).2 2 2 _ isOp 128
  exact ⟨s, reachable, isOp, isCard, accepts.mpr (by rw [isCard]; decide)⟩

/-- **The reservation does not suffice.** Operation 2 has logged nine blocks and may
log a tenth, which `log_write` refuses. -/
theorem reserved_block_refused : ∃ s : State (Fin 3),
    Reachable Modest (boot (Fin 3) (fun _ _ => 0) 2 LOGSIZE) s ∧
    Modest s (.logWrite 2 129 fun _ => 0) ∧
    s.work 2 = some (.op 2 ((List.range 9).map (120 + ·))) ∧
    logWrite s.log 129 = .error .tooBig := by
  exact Reachable.exists_of_follow Modest (boot (Fin 3) (fun _ _ => 0) 2 LOGSIZE)
    (fullSchedule 0 1 2) (fun s => Modest s (.logWrite 2 129 fun _ => 0) ∧
      s.work 2 = some (.op 2 ((List.range 9).map (120 + ·))) ∧
      logWrite s.log 129 = .error .tooBig) (by decide +kernel)

end Sufficiency

end Xv6.Logging
