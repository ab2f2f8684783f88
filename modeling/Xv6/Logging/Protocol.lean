import Xv6.Logging.Machine
import Xv6.Threads.Count

/-!
Contract: the protocol of `begin_op`, `log_write` and `end_op`.

Owns: the invariant of the protocol (`Orderly`), which relates `outstanding` and
`committing` to what the processes do and the log header to the updates since the
last commit; that every step keeps it; and what follows: which panics can be
reached, what cannot happen during a commit, and that no operation is split over
two commits.
-/

namespace Xv6.Logging

open Xv6.Kernel
open Xv6.Threads
open Function

/-! ## The header -/

variable {blockno : Nat} {lh : List Nat}

theorem mem_absorb {b : Nat} :
    b ∈ absorb blockno lh ↔ b = blockno ∨ b ∈ lh := by
  induction lh with
  | nil => simp [absorb]
  | cons logged rest ih =>
      unfold absorb
      split
      · rename_i same
        simp [same]
      · rw [List.mem_cons, List.mem_cons, ih]
        tauto

theorem nodup_absorb (distinct : lh.Nodup) :
    (absorb blockno lh).Nodup := by
  induction lh with
  | nil => simp [absorb]
  | cons logged rest ih =>
      obtain ⟨fresh, restDistinct⟩ := List.nodup_cons.mp distinct
      unfold absorb
      split
      · rename_i same
        rw [← same]
        exact distinct
      · rename_i different
        refine List.nodup_cons.mpr ⟨?_, ih restDistinct⟩
        rw [mem_absorb, not_or]
        exact ⟨different, fresh⟩

theorem length_absorb (blockno : Nat) (lh : List Nat) :
    (absorb blockno lh).length = lh.length + if blockno ∈ lh then 0 else 1 := by
  induction lh with
  | nil => rfl
  | cons logged rest ih =>
      unfold absorb
      by_cases same : logged = blockno
      · simp [same]
      · rw [if_neg same, List.length_cons, List.length_cons, ih]
        simp only [List.mem_cons, Ne.symm same, false_or]
        omega

/-! ## The invariant -/

/-- An operation counts as outstanding. -/
def Work.ops : Work → Nat
  | .op _ _ => 1
  | .commit _ => 0

def Work.commits : Work → Nat
  | .op _ _ => 0
  | .commit _ => 1

/-- The header of the commit is on disk and not erased yet. -/
def Point.installing : Point → Bool
  | .install _ => true
  | .erase => true
  | _ => false

variable {P : Type} [DecidableEq P] [Fintype P]

/-- The processes' work as stacks of at most one frame. -/
def State.stack (s : State P) (p : P) : List Work := (s.work p).toList

/-- No two of the transactions have an operation in common. -/
def Apart (transactions : List (List Update)) : Prop :=
  transactions.Pairwise fun first second =>
    ∀ update ∈ first, ∀ update' ∈ second, update.op ≠ update'.op

structure Orderly (s : State P) : Prop where
  outstanding : s.log.outstanding = countAll Work.ops s.stack
  committing : countAll Work.commits s.stack = if s.log.committing then 1 else 0
  exclusive : s.log.committing = true → s.log.outstanding = 0
  recovering : s.recovery ≠ none → s.pending = [] ∧ ∀ p, s.work p = none
  distinct : s.recovery = none → s.log.lh.Nodup
  /-- The header lists the blocks of the updates since the last commit. -/
  entries : s.recovery = none →
    (∀ p point, s.work p = some (.commit point) → point.installing = false) →
    ∀ b, b ∈ s.log.lh ↔ b ∈ s.pending.map Update.blockno
  installed : ∀ p point, s.work p = some (.commit point) → point.installing = true →
    s.pending = []
  erased : (s.recovery = some .erase ∨ ∃ p, s.work p = some (.commit .erase)) →
    s.log.lh = []
  /-- Operations are numbered in order, and one in progress has no update in a
  commit. -/
  numbered : (∀ update ∈ s.commits.flatten ++ s.pending, update.op < s.nextOp) ∧
    ∀ p op logged, s.work p = some (.op op logged) → op < s.nextOp ∧
      ∀ update ∈ s.commits.flatten, update.op ≠ op
  apart : Apart (s.commits ++ [s.pending])

section Reading

variable {s : State P} {p : P} {op : Nat} {logged : List Nat} {point : Point}

omit [DecidableEq P] [Fintype P] in
theorem State.stack_of_work {work : Option Work} (isWork : s.work p = work) :
    s.stack p = work.toList := by
  rw [State.stack, isWork]

/-- Changing the work of one process changes the counts by its share. -/
theorem countAll_setWork {s' : State P} (carries : Work → Nat)
    (others : ∀ q, q ≠ p → s'.work q = s.work q) :
    countAll carries s'.stack + countIn carries (s.stack p) =
      countAll carries s.stack + countIn carries (s'.stack p) := by
  have same : countElse carries s'.stack p = countElse carries s.stack p :=
    countElse_congr fun q different => by rw [State.stack, State.stack, others q different]
  rw [countAll_eq carries s'.stack p, countAll_eq carries s.stack p, same]
  omega

omit [DecidableEq P] in
theorem Orderly.running (orderly : Orderly s) (busy : s.work p ≠ none) :
    s.recovery = none := by
  by_contra recovering
  exact busy ((orderly.recovering recovering).2 p)

theorem Orderly.of_op (orderly : Orderly s) (isOp : s.work p = some (.op op logged)) :
    1 ≤ s.log.outstanding ∧ s.log.committing = false ∧
      ∀ q point, s.work q ≠ some (.commit point) := by
  have share := countIn_le_countAll Work.ops s.stack p
  rw [State.stack_of_work isOp] at share
  have counted : 1 ≤ countAll Work.ops s.stack := by simpa [Work.ops] using share
  have positive : 1 ≤ s.log.outstanding := by
    rw [orderly.outstanding]
    exact_mod_cast counted
  have quiet : s.log.committing = false := by
    by_contra committing
    have zero := orderly.exclusive (by simpa using committing)
    omega
  have nobody := orderly.committing
  rw [quiet] at nobody
  refine ⟨positive, quiet, fun q point isCommit => ?_⟩
  have carried := countAll_eq_zero_iff.mp nobody q (.commit point)
    (by simp [State.stack_of_work isCommit])
  cases carried

/-- The process that commits is alone: no operation is in progress and nobody else
commits. -/
theorem Orderly.of_commit (orderly : Orderly s) (isCommit : s.work p = some (.commit point)) :
    s.log.committing = true ∧ s.log.outstanding = 0 ∧ ∀ q, q ≠ p → s.work q = none := by
  have split := countAll_eq Work.commits s.stack p
  rw [State.stack_of_work isCommit, orderly.committing] at split
  simp only [Option.toList_some, countIn_cons, countIn_nil, Work.commits] at split
  have committing : s.log.committing = true := by
    by_contra quiet
    rw [if_neg quiet] at split
    omega
  rw [if_pos committing] at split
  have noOps := orderly.outstanding
  rw [orderly.exclusive committing] at noOps
  refine ⟨committing, orderly.exclusive committing, fun q different => ?_⟩
  cases isWork : s.work q with
  | none => rfl
  | some work =>
      cases work with
      | op op logged =>
          have nothing := countAll_eq_zero_iff.mp (by omega : countAll Work.ops s.stack = 0) q
            (.op op logged) (by simp [State.stack_of_work isWork])
          cases nothing
      | commit other =>
          have once : countAll Work.commits s.stack = 1 := by
            rw [orderly.committing, if_pos committing]
          obtain ⟨owner, _, only⟩ := existsUnique_of_countAll_eq_one once
          have first := only p ⟨.commit point, by simp [State.stack_of_work isCommit],
            Nat.one_pos⟩
          have second := only q ⟨.commit other, by simp [State.stack_of_work isWork],
            Nat.one_pos⟩
          exact absurd (second.trans first.symm) different

end Reading

/-! ## Every step keeps the invariant -/

section Steps

variable {s s' : State P} {p : P} {op blockno start size : Nat} {logged : List Nat}
  {point point' : Point} {log log' : Log} {doCommit : Bool} {action : Action P}
  {allowed : State P → Action P → Prop} {disk : Nat → Block}

omit [DecidableEq P] in
theorem Orderly.of_idle (idle : ∀ p, s.work p = none) (outstanding : s.log.outstanding = 0)
    (committing : s.log.committing = false) (recovering : s.recovery ≠ none → s.pending = [])
    (distinct : s.recovery = none → s.log.lh.Nodup)
    (entries : s.recovery = none → ∀ b, b ∈ s.log.lh ↔ b ∈ s.pending.map Update.blockno)
    (erased : s.recovery = some .erase → s.log.lh = [])
    (numbered : ∀ update ∈ s.commits.flatten ++ s.pending, update.op < s.nextOp)
    (apart : Apart (s.commits ++ [s.pending])) : Orderly s := by
  have nothing : ∀ carries : Work → Nat, countAll carries s.stack = 0 := fun carries =>
    countAll_eq_zero_iff.mpr fun p frame member => by
      rw [State.stack_of_work (idle p)] at member
      cases member
  constructor
  · rw [outstanding, nothing]
    rfl
  · rw [committing, nothing]
    rfl
  · exact fun _ => outstanding
  · exact fun isRecovering => ⟨recovering isRecovering, idle⟩
  · exact distinct
  · exact fun running _ => entries running
  · intro p point isWork
    rw [idle p] at isWork
    cases isWork
  · rintro (isErase | ⟨p, isWork⟩)
    · exact erased isErase
    · rw [idle p] at isWork
      cases isWork
  · refine ⟨numbered, fun p op logged isWork => ?_⟩
    rw [idle p] at isWork
    cases isWork
  · exact apart

theorem Orderly.commitMove (orderly : Orderly s) (isCommit : s.work p = some (.commit point))
    (work : s'.work = update s.work p (some (.commit point')))
    (outstanding : s'.log.outstanding = s.log.outstanding)
    (committing : s'.log.committing = s.log.committing) (recovery : s'.recovery = s.recovery)
    (nextOp : s'.nextOp = s.nextOp) (distinct : s'.log.lh.Nodup)
    (entries : point'.installing = false →
      ∀ b, b ∈ s'.log.lh ↔ b ∈ s'.pending.map Update.blockno)
    (installed : point'.installing = true → s'.pending = [])
    (erased : point' = .erase → s'.log.lh = [])
    (numbered : ∀ update ∈ s'.commits.flatten ++ s'.pending,
      update ∈ s.commits.flatten ++ s.pending)
    (apart : Apart (s'.commits ++ [s'.pending])) : Orderly s' := by
  obtain ⟨isCommitting, none, alone⟩ := orderly.of_commit isCommit
  have own : s'.work p = some (.commit point') := by rw [work, update_self]
  have others : ∀ q, q ≠ p → s'.work q = s.work q := fun q different => by
    rw [work, update_of_ne different]
  have isPoint : ∀ q point, s'.work q = some (.commit point) → point = point' := by
    intro q point isWork
    by_cases same : q = p
    · rw [same, own] at isWork
      cases isWork
      rfl
    · rw [others q same, alone q same] at isWork
      cases isWork
  have running : s'.recovery = Option.none := by
    rw [recovery]
    exact orderly.running (p := p) (by simp [isCommit])
  have ops := countAll_setWork Work.ops others
  have commits := countAll_setWork Work.commits others
  rw [State.stack_of_work isCommit, State.stack_of_work own] at ops commits
  simp only [Option.toList_some, countIn_cons, countIn_nil, Work.ops, Work.commits] at ops commits
  constructor
  · rw [outstanding, orderly.outstanding]
    omega
  · rw [committing, ← orderly.committing]
    omega
  · intro _
    rw [outstanding, none]
  · intro recovering
    exact absurd running recovering
  · exact fun _ => distinct
  · exact fun _ before => entries (before p point' own)
  · intro q point isWork installing
    exact installed (isPoint q point isWork ▸ installing)
  · rintro (recovering | ⟨q, isWork⟩)
    · rw [running] at recovering
      cases recovering
    · exact erased (isPoint q _ isWork).symm
  · refine ⟨fun update member => ?_, fun q op logged isWork => ?_⟩
    · rw [nextOp]
      exact orderly.numbered.1 update (numbered update member)
    · by_cases same : q = p
      · rw [same, own] at isWork
        cases isWork
      · rw [others q same, alone q same] at isWork
        cases isWork
  · exact apart

theorem Apart.concat_nil {transactions : List (List Update)} (apart : Apart transactions) :
    Apart (transactions ++ [[]]) := by
  refine List.pairwise_append.mpr ⟨apart, List.pairwise_singleton _ _, ?_⟩
  intro first _ second isNil update _ update' impossible
  rw [List.mem_singleton.mp isNil] at impossible
  cases impossible

theorem Apart.left {first second : List (List Update)} (apart : Apart (first ++ second)) :
    Apart first :=
  (List.pairwise_append.mp apart).1

theorem Orderly.commitStep (orderly : Orderly s) (isCommit : s.work p = some (.commit point)) :
    Orderly (s.commitStep p point) := by
  have running := orderly.running (p := p) (by simp [isCommit])
  obtain ⟨committing, outstanding, alone⟩ := orderly.of_commit isCommit
  have distinct := orderly.distinct running
  have entries : point.installing = false →
      ∀ b, b ∈ s.log.lh ↔ b ∈ s.pending.map Update.blockno := by
    intro before
    refine orderly.entries running fun q other isWork => ?_
    by_cases same : q = p
    · rw [same, isCommit] at isWork
      cases isWork
      exact before
    · rw [alone q same] at isWork
      cases isWork
  cases point with
  | start =>
      refine orderly.commitMove isCommit rfl rfl rfl rfl rfl distinct (fun _ => entries rfl) ?_ ?_
        (fun _ => id) orderly.apart
      · split <;> exact fun impossible => by cases impossible
      · split <;> exact fun impossible => by cases impossible
  | writeLog tail =>
      dsimp only [State.commitStep]
      split
      · exact orderly.commitMove isCommit rfl rfl rfl rfl rfl distinct (fun _ => entries rfl)
          (by simp [Point.installing]) (by simp) (fun _ => id) orderly.apart
      · exact orderly.commitMove isCommit rfl rfl rfl rfl rfl distinct (fun _ => entries rfl)
          (by simp [Point.installing]) (by simp) (fun _ => id) orderly.apart
  | writeHead =>
      refine orderly.commitMove isCommit rfl rfl rfl rfl rfl distinct (by simp [Point.installing])
        (fun _ => rfl) (by simp) ?_ orderly.apart.concat_nil
      intro update member
      simpa [State.commitStep, State.setWork] using member
  | install tail =>
      have nothing := orderly.installed p _ isCommit rfl
      dsimp only [State.commitStep]
      split
      · exact orderly.commitMove isCommit rfl rfl rfl rfl rfl distinct
          (by simp [Point.installing]) (fun _ => nothing) (by simp) (fun _ => id) orderly.apart
      · exact orderly.commitMove isCommit rfl rfl rfl rfl rfl List.nodup_nil
          (by simp [Point.installing]) (fun _ => nothing) (fun _ => rfl) (fun _ => id)
          orderly.apart
  | erase =>
      have nothing := orderly.installed p _ isCommit rfl
      have empty := orderly.erased (.inr ⟨p, isCommit⟩)
      refine orderly.commitMove isCommit rfl rfl rfl rfl rfl distinct (fun _ b => ?_)
        (by simp [Point.installing]) (by simp) (fun _ => id) orderly.apart
      simp [State.commitStep, State.setWork, nothing, empty]
  | finish =>
      refine .of_idle (fun q => ?_) outstanding rfl (fun recovering => absurd running recovering)
        (fun _ => distinct) (fun _ => entries rfl) ?_ orderly.numbered.1 orderly.apart
      · by_cases same : q = p
        · rw [same]
          exact update_self ..
        · exact (update_of_ne same ..).trans (alone q same)
      · intro isErase
        exact absurd (running.symm.trans isErase) (by simp)

theorem beginOp_eq (began : beginOp log = some log') :
    log.committing = false ∧
      (log.lh.length : Int) + (log.outstanding + 1) * MAXOPBLOCKS ≤ LOGSIZE ∧
      log' = { log with outstanding := log.outstanding + 1 } := by
  unfold beginOp at began
  split at began
  · cases began
  · rename_i quiet
    split at began
    · cases began
    · rename_i room
      cases began
      exact ⟨by simpa using quiet, by omega, rfl⟩

theorem logWrite_eq (wrote : logWrite log blockno = .ok log') :
    log.lh.length < LOGSIZE ∧ log.lh.length + 1 < log.size ∧
      log' = { log with lh := absorb blockno log.lh } := by
  unfold logWrite at wrote
  split at wrote
  · cases wrote
  · rename_i room
    split at wrote
    · cases wrote
    · cases wrote
      exact ⟨by omega, by omega, rfl⟩

theorem endOp_eq (ended : endOp log = .ok (log', doCommit)) :
    log.committing = false ∧
      log' = { log with outstanding := log.outstanding - 1, committing := doCommit } ∧
      (doCommit = true ↔ log.outstanding = 1) := by
  unfold endOp at ended
  dsimp only at ended
  split at ended
  · cases ended
  · rename_i quiet
    have notCommitting : log.committing = false := by simpa using quiet
    split at ended
    · cases ended
      exact ⟨notCommitting, rfl, by simp; omega⟩
    · cases ended
      exact ⟨notCommitting, by rw [← notCommitting], by simp; omega⟩

theorem Orderly.no_commits (orderly : Orderly s) (quiet : s.log.committing = false) :
    ∀ q point, s.work q ≠ some (.commit point) := by
  intro q point isCommit
  rw [(orderly.of_commit isCommit).1] at quiet
  cases quiet

theorem Orderly.opMove (orderly : Orderly s) (running : s.recovery = none)
    (quiet : s.log.committing = false)
    (work : s'.work = update s.work p (some (.op op logged)))
    (outstanding : s'.log.outstanding + countIn Work.ops (s.stack p) = s.log.outstanding + 1)
    (committing : s'.log.committing = s.log.committing) (recovery : s'.recovery = s.recovery)
    (distinct : s'.log.lh.Nodup)
    (entries : ∀ b, b ∈ s'.log.lh ↔ b ∈ s'.pending.map Update.blockno)
    (commits : s'.commits = s.commits) (nextOp : s.nextOp ≤ s'.nextOp)
    (pending : ∀ update ∈ s'.pending, update ∈ s.pending ∨ update.op = op)
    (numbered : op < s'.nextOp ∧ ∀ update ∈ s.commits.flatten, update.op ≠ op) :
    Orderly s' := by
  have noCommits := orderly.no_commits quiet
  have own : s'.work p = some (.op op logged) := by rw [work, update_self]
  have others : ∀ q, q ≠ p → s'.work q = s.work q := fun q different => by
    rw [work, update_of_ne different]
  have stillNone : ∀ q point, s'.work q ≠ some (.commit point) := by
    intro q point isCommit
    by_cases same : q = p
    · rw [same, own] at isCommit
      cases isCommit
    · exact noCommits q point (others q same ▸ isCommit)
  have ops := countAll_setWork Work.ops others
  rw [State.stack_of_work own] at ops
  simp only [Option.toList_some, countIn_cons, countIn_nil, Work.ops] at ops
  constructor
  · have before := orderly.outstanding
    omega
  · rw [committing, quiet]
    refine countAll_eq_zero_iff.mpr fun q frame member => ?_
    cases frame with
    | op => rfl
    | commit point =>
        exact absurd (by simpa [State.stack] using member) (stillNone q point)
  · intro isCommitting
    rw [committing, quiet] at isCommitting
    cases isCommitting
  · intro recovering
    rw [recovery, running] at recovering
    exact absurd rfl recovering
  · exact fun _ => distinct
  · exact fun _ _ => entries
  · exact fun q point isCommit => absurd isCommit (stillNone q point)
  · rintro (isErase | ⟨q, isCommit⟩)
    · rw [recovery, running] at isErase
      cases isErase
    · exact absurd isCommit (stillNone q _)
  · refine ⟨fun update member => ?_, fun q other otherLogged isWork => ?_⟩
    · rw [commits, List.mem_append] at member
      rcases member with inCommits | isPending
      · exact Nat.lt_of_lt_of_le
          (orderly.numbered.1 update (List.mem_append_left _ inCommits)) nextOp
      · rcases pending update isPending with old | isOwn
        · exact Nat.lt_of_lt_of_le
            (orderly.numbered.1 update (List.mem_append_right _ old)) nextOp
        · rw [isOwn]
          exact numbered.1
    · rw [commits]
      by_cases same : q = p
      · rw [same, own] at isWork
        cases isWork
        exact numbered
      · rw [others q same] at isWork
        obtain ⟨below, absent⟩ := orderly.numbered.2 q other otherLogged isWork
        exact ⟨Nat.lt_of_lt_of_le below nextOp, absent⟩
  · rw [commits]
    refine List.pairwise_append.mpr ⟨orderly.apart.left, List.pairwise_singleton _ _, ?_⟩
    intro first isCommit second isPending update member update' member'
    rw [List.mem_singleton.mp isPending] at member'
    rcases pending update' member' with old | isOwn
    · exact (List.pairwise_append.mp orderly.apart).2.2 first isCommit s.pending (by simp)
        update member update' old
    · rw [isOwn]
      exact numbered.2 update (List.mem_flatten.mpr ⟨first, isCommit, member⟩)

theorem Orderly.beginOp (orderly : Orderly s) (running : s.recovery = none) (free : s.work p = none)
    (began : beginOp s.log = some log) :
    Orderly ({ s with log, nextOp := s.nextOp + 1 }.setWork p (some (.op s.nextOp []))) := by
  obtain ⟨quiet, _, rfl⟩ := beginOp_eq began
  have entries := orderly.entries running
    fun q point isCommit => absurd isCommit (orderly.no_commits quiet q point)
  refine orderly.opMove running quiet rfl ?_ rfl rfl (orderly.distinct running) entries rfl
    (Nat.le_succ _) (fun _ => .inl) ⟨Nat.lt_succ_self _, fun update member => ?_⟩
  · rw [State.stack_of_work free]
    simp [State.setWork]
  · exact Nat.ne_of_lt (orderly.numbered.1 update (List.mem_append_left _ member))

theorem Orderly.logWrite {data : Block} {store : Store} (orderly : Orderly s)
    (isOp : s.work p = some (.op op logged)) (wrote : logWrite s.log blockno = .ok log) :
    Orderly ({ s with
      log
      store
      pending := s.pending ++ [Update.mk op blockno data] }.setWork p
        (some (.op op (absorb blockno logged)))) := by
  obtain ⟨_, _, rfl⟩ := logWrite_eq wrote
  have running := orderly.running (p := p) (by simp [isOp])
  obtain ⟨_, quiet, noCommits⟩ := orderly.of_op isOp
  have entries := orderly.entries running
    fun q point isCommit => absurd isCommit (noCommits q point)
  refine orderly.opMove running quiet rfl ?_ rfl rfl (nodup_absorb (orderly.distinct running))
    (fun b => ?_) rfl (Nat.le_refl _) (fun update member => ?_) (orderly.numbered.2 p _ _ isOp)
  · rw [State.stack_of_work isOp]
    simp [State.setWork, Work.ops]
  · simp only [State.setWork, mem_absorb, entries b, List.map_append, List.mem_append,
      List.map_cons, List.map_nil, List.mem_singleton]
    tauto
  · rcases List.mem_append.mp member with old | isNew
    · exact .inl old
    · rw [List.mem_singleton.mp isNew]
      exact .inr rfl

theorem Orderly.opLeave (orderly : Orderly s) (isOp : s.work p = some (.op op logged))
    (last : doCommit = true ↔ s.log.outstanding = 1) (work : s'.work =
      update s.work p (if doCommit then some (.commit .start) else none))
    (outstanding : s'.log.outstanding = s.log.outstanding - 1)
    (committing : s'.log.committing = doCommit) (lh : s'.log.lh = s.log.lh)
    (recovery : s'.recovery = s.recovery) (nextOp : s'.nextOp = s.nextOp)
    (pending : s'.pending = s.pending) (commits : s'.commits = s.commits) : Orderly s' := by
  have running := orderly.running (p := p) (by simp [isOp])
  obtain ⟨_, quiet, noCommits⟩ := orderly.of_op isOp
  have others : ∀ q, q ≠ p → s'.work q = s.work q := fun q different => by
    rw [work, update_of_ne different]
  have own : s'.work p = if doCommit then some (.commit .start) else none := by
    rw [work, update_self]
  have points : ∀ q point, s'.work q = some (.commit point) → point = .start := by
    intro q point isCommit
    by_cases same : q = p
    · rw [same, own] at isCommit
      split at isCommit
      · cases isCommit
        rfl
      · cases isCommit
    · exact absurd (others q same ▸ isCommit) (noCommits q point)
  have opShare : countIn Work.ops (s'.stack p) = 0 := by
    rw [State.stack_of_work own]
    cases doCommit <;> rfl
  have commitShare : countIn Work.commits (s'.stack p) = if doCommit then 1 else 0 := by
    rw [State.stack_of_work own]
    cases doCommit <;> rfl
  have opsMove := countAll_setWork Work.ops others
  have commitsMove := countAll_setWork Work.commits others
  rw [opShare, State.stack_of_work isOp] at opsMove
  rw [commitShare, State.stack_of_work isOp, orderly.committing, quiet] at commitsMove
  have before := orderly.outstanding
  constructor
  · rw [outstanding]
    simp only [Option.toList_some, countIn_cons, countIn_nil, Work.ops] at opsMove
    omega
  · rw [committing]
    simpa [Work.commits] using commitsMove
  · intro isCommitting
    rw [committing] at isCommitting
    rw [outstanding, last.mp isCommitting]
    rfl
  · intro recovering
    rw [recovery] at recovering
    exact absurd running recovering
  · intro _
    rw [lh]
    exact orderly.distinct running
  · intro _ _
    rw [lh, pending]
    exact orderly.entries running fun q point isCommit => absurd isCommit (noCommits q point)
  · intro q point isCommit installing
    rw [points q point isCommit] at installing
    cases installing
  · rintro (isErase | ⟨q, isCommit⟩)
    · rw [recovery, running] at isErase
      cases isErase
    · cases points q _ isCommit
  · rw [commits, pending, nextOp]
    refine ⟨orderly.numbered.1, fun q other otherLogged isWork => ?_⟩
    by_cases same : q = p
    · rw [same, own] at isWork
      split at isWork <;> cases isWork
    · exact orderly.numbered.2 q other otherLogged (others q same ▸ isWork)
  · rw [commits, pending]
    exact orderly.apart

omit [DecidableEq P] in
theorem Orderly.crash (orderly : Orderly s) : Orderly s.crash := by
  refine .of_idle (fun _ => rfl) rfl rfl (fun _ => rfl) ?_ ?_ ?_ ?_ ?_
  · intro running
    cases running
  · intro running
    cases running
  · intro isErase
    cases isErase
  · intro update member
    simp only [State.crash, List.append_nil] at member
    exact orderly.numbered.1 update (List.mem_append_left _ member)
  · exact orderly.apart.left.concat_nil

omit [DecidableEq P] in
theorem Orderly.recoverStep {recovery : Recovery} (orderly : Orderly s)
    (isRecovery : s.recovery = some recovery) : Orderly (s.recoverStep recovery) := by
  obtain ⟨nothing, idle⟩ := orderly.recovering (by simp [isRecovery])
  -- Nobody has work, so nothing is outstanding and nobody commits.
  have noWork : ∀ carries : Work → Nat, countAll carries s.stack = 0 := fun carries =>
    countAll_eq_zero_iff.mpr fun p frame member => by
      rw [State.stack_of_work (idle p)] at member
      cases member
  have outstanding : s.log.outstanding = 0 := by
    rw [orderly.outstanding, noWork]
    rfl
  have committing : s.log.committing = false := by
    have nobody := orderly.committing
    rw [noWork] at nobody
    by_contra isCommitting
    rw [if_pos (by simpa using isCommitting)] at nobody
    cases nobody
  cases recovery with
  | readHead =>
      exact .of_idle idle outstanding committing (fun _ => nothing) (by simp [State.recoverStep])
        (by simp [State.recoverStep]) (by simp [State.recoverStep]) orderly.numbered.1
        orderly.apart
  | install tail =>
      dsimp only [State.recoverStep]
      split
      · exact .of_idle idle outstanding committing (fun _ => nothing) (by simp) (by simp)
          (by simp) orderly.numbered.1 orderly.apart
      · exact .of_idle idle outstanding committing (fun _ => nothing) (by simp) (by simp)
          (fun _ => rfl) orderly.numbered.1 orderly.apart
  | erase =>
      have empty := orderly.erased (.inl isRecovery)
      refine .of_idle idle outstanding committing (fun _ => nothing) (fun _ => ?_) (fun _ => ?_)
        (by simp [State.recoverStep]) orderly.numbered.1 orderly.apart
      · simp [State.recoverStep, empty]
      · simp [State.recoverStep, empty, nothing]

omit [Fintype P] in
theorem Stepped.geometry (stepped : Stepped s action s') :
    s'.log.start = s.log.start ∧ s'.log.size = s.log.size := by
  cases stepped with
  | beginOp running free began =>
      obtain ⟨_, _, rfl⟩ := beginOp_eq began
      exact ⟨rfl, rfl⟩
  | logWrite isOp wrote =>
      obtain ⟨_, _, rfl⟩ := logWrite_eq wrote
      exact ⟨rfl, rfl⟩
  | endOp isOp ended =>
      obtain ⟨_, rfl, _⟩ := endOp_eq ended
      exact ⟨rfl, rfl⟩
  | @commit p point isCommit =>
      cases point with
      | writeLog tail =>
          dsimp only [State.commitStep]
          split <;> exact ⟨rfl, rfl⟩
      | install tail =>
          dsimp only [State.commitStep]
          split <;> exact ⟨rfl, rfl⟩
      | _ => exact ⟨rfl, rfl⟩
  | recycle unlogged => exact ⟨rfl, rfl⟩
  | crash => exact ⟨rfl, rfl⟩
  | @recover recovery isRecovery =>
      cases recovery with
      | install tail =>
          dsimp only [State.recoverStep]
          split <;> exact ⟨rfl, rfl⟩
      | _ => exact ⟨rfl, rfl⟩

omit [Fintype P] in
theorem Reachable.geometry (reachable : Reachable allowed (boot P disk start size) s) :
    s.log.start = start ∧ s.log.size = size := by
  induction reachable with
  | start => exact ⟨rfl, rfl⟩
  | step _ _ stepped ih =>
      obtain ⟨start, size⟩ := (Stepped.of_step stepped).geometry
      exact ⟨start.trans ih.1, size.trans ih.2⟩

theorem Orderly.step (orderly : Orderly s) (stepped : step s action = some s') : Orderly s' := by
  cases Stepped.of_step stepped with
  | beginOp running free began => exact orderly.beginOp running free began
  | logWrite isOp wrote => exact orderly.logWrite isOp wrote
  | endOp isOp ended =>
      obtain ⟨_, rfl, last⟩ := endOp_eq ended
      exact orderly.opLeave isOp last rfl rfl rfl rfl rfl rfl rfl rfl
  | commit isCommit => exact orderly.commitStep isCommit
  | recycle unlogged =>
      exact ⟨orderly.outstanding, orderly.committing, orderly.exclusive, orderly.recovering,
        orderly.distinct, orderly.entries, orderly.installed, orderly.erased,
        orderly.numbered, orderly.apart⟩
  | crash => exact orderly.crash
  | recover isRecovery => exact orderly.recoverStep isRecovery

omit [DecidableEq P] in
theorem Orderly.boot (disk : Nat → Block) (start size : Nat) :
    Orderly (boot P disk start size) :=
  .of_idle (fun _ => rfl) rfl rfl (fun _ => rfl) (fun _ => List.nodup_nil) (fun _ _ => Iff.rfl)
    (fun _ => rfl) (by simp [Logging.boot]) (List.pairwise_singleton _ _)

theorem Reachable.orderly (reachable : Reachable allowed (boot P disk start size) s) :
    Orderly s := by
  induction reachable with
  | start => exact .boot disk start size
  | step _ _ stepped ih => exact ih.step stepped

end Steps

/-! ## Group commit -/

section GroupCommit

variable {allowed : State P → Action P → Prop} {disk : Nat → Block} {start size : Nat}
  {s : State P}

/-- **Group commit.** In every reachable state: while `committing` is set nothing is
outstanding; a process in an operation can end it and can call `log_write` without
the panics about `committing` and `outstanding`; while a process commits, it is
the only one, and no `begin_op` and no `log_write` completes; the updates of one
operation belong to one commit; and the header lists no block twice. -/
theorem group_commit (reachable : Reachable allowed (boot P disk start size) s) :
    (s.log.committing = true → s.log.outstanding = 0) ∧
      (∀ p op logged, s.work p = some (.op op logged) →
        endOp s.log ≠ .error .committing ∧ ∀ b, logWrite s.log b ≠ .error .outsideOfTrans) ∧
      (∀ p point, s.work p = some (.commit point) →
        (∀ q other, s.work q = some (.commit other) → q = p) ∧
          ∀ q b data, step s (.beginOp q) = none ∧ step s (.logWrite q b data) = none) ∧
      Apart (s.commits ++ [s.pending]) ∧ (s.recovery = none → s.log.lh.Nodup) := by
  have orderly := reachable.orderly
  refine ⟨orderly.exclusive, ?_, ?_, orderly.apart, orderly.distinct⟩
  · intro p op logged isOp
    obtain ⟨positive, quiet, _⟩ := orderly.of_op isOp
    refine ⟨?_, fun b => ?_⟩
    · unfold endOp
      dsimp only
      rw [if_neg (by simp [quiet])]
      split <;> simp
    · unfold logWrite
      split
      · simp
      · rw [if_neg (by omega)]
        simp
  · intro p point isCommit
    obtain ⟨committing, _, alone⟩ := orderly.of_commit isCommit
    have noBegin : beginOp s.log = none := by simp [beginOp, committing]
    refine ⟨fun q other isOther => ?_, fun q b data => ⟨?_, ?_⟩⟩
    · by_contra different
      rw [alone q different] at isOther
      cases isOther
    · simp [step, noBegin]
    · by_cases same : q = p
      · simp [step, same, isCommit]
      · simp [step, alone q same]

/-- Two operations that end one after the other, with a block in common, and the
start of their commit. -/
theorem group_commit_two : ∃ s : State (Fin 2),
    Reachable (fun _ _ => True) (boot (Fin 2) (fun _ _ => 0) 2 LOGSIZE) s ∧
    s.work 1 = some (.commit .start) ∧ s.pending.map (fun u => (u.op, u.blockno)) =
      [(0, 40), (1, 41), (1, 40)] ∧ s.log.lh.Nodup ∧ s.log.outstanding = 0 := by
  obtain ⟨s, reachable, isCommit, updates, running⟩ := Reachable.exists_of_follow
    (fun _ _ => True) (boot (Fin 2) (fun _ _ => 0) 2 LOGSIZE)
    [.recover, .recover, .recover, .beginOp 0, .logWrite 0 40 fun _ => 7, .beginOp 1,
      .logWrite 1 41 fun _ => 8, .endOp 0, .logWrite 1 40 fun _ => 9, .endOp 1]
    (fun s => s.work 1 = some (.commit .start) ∧
      s.pending.map (fun u => (u.op, u.blockno)) = [(0, 40), (1, 41), (1, 40)] ∧
      s.recovery = none ∧ s.log.committing = true) (by decide +kernel)
  obtain ⟨exclusive, _, _, _, distinct⟩ := group_commit reachable
  exact ⟨s, reachable, isCommit, updates, distinct running.1, exclusive running.2⟩

end GroupCommit

end Xv6.Logging
