import Xv6.Logging.Protocol

/-!
Contract: the log makes commits atomic with respect to crashes.

Owns: the contents the disk is meant to have after the commits so far (`durable`)
and with the updates since then (`current`), the invariant that the disk can be
brought to `durable` from the log at every moment (`Safe`), that every step keeps
it, and what a completed recovery finds.
-/

namespace Xv6.Logging

open Xv6.Kernel
open Xv6.Journal
open Function

/-! ## The header block -/

theorem readHead_writeHead (hb : Block) {lh : List Nat} (fits : lh.length < WORDS) :
    readHead (writeHead hb lh) = lh := by
  have count : Block.word (writeHead hb lh) 0 = lh.length := by
    simp [Block.word, writeHead, show 0 < WORDS by decide]
  refine List.ext_getElem? fun i => ?_
  rw [readHead, count, List.getElem?_map]
  by_cases inRange : i < lh.length
  · have inBlock : i + 1 < WORDS := by omega
    simp [Block.word, writeHead, inBlock, inRange]
  · simp [inRange]

/-! ## Contents -/

def Update.write (update : Update) : Nat × Block := (update.blockno, update.data)

variable {P : Type} {log : Log}

/-- The disk after all commits, from the initial one. -/
def State.durable (s : State P) (disk : Nat → Block) : Nat → Block :=
  replay disk (s.commits.flatten.map Update.write)

/-- With the updates since the last commit. -/
def State.current (s : State P) (disk : Nat → Block) : Nat → Block :=
  replay (s.durable disk) (s.pending.map Update.write)

theorem State.current_of_nil {s : State P} {disk : Nat → Block} (nothing : s.pending = []) :
    s.current disk = s.durable disk := by
  rw [State.current, nothing]
  rfl

theorem Log.not_outside_start (nonempty : 0 < log.size) :
    ¬ log.Outside log.start := by
  unfold Log.Outside
  omega

theorem Log.not_outside_slot {i : Nat} (inLog : i + 1 < log.size) :
    ¬ log.Outside (log.slot i) := by
  unfold Log.Outside Log.slot
  omega

/-- The blocks of the list lie outside the log, which has room for all of them. -/
structure Log.Lists (log : Log) (blocks : List Nat) : Prop where
  outside : ∀ b ∈ blocks, log.Outside b
  inLog : blocks.length < log.size
  inHeader : blocks.length ≤ LOGSIZE

/-- Copies of the blocks are being installed: the header on disk is the one in
memory and only entries from `tail` on may still differ from their contents. -/
structure Installing (log : Log) (disk intended : Nat → Block) (tail : Nat) : Prop where
  header : readHead (disk log.start) = log.lh
  agree : AgreeOff log.Outside (log.lh.drop tail) disk intended

/-! ## The store, step by step -/

/-- The log and the store in relation to the durable contents. -/
structure Kept (log : Log) (store : Store) (durable : Nat → Block) : Prop where
  /-- Only blocks in the header differ between buffers and disk. -/
  cached : ∀ b, b ∉ log.lh → store.cache b = store.disk b
  recoverable : Recoverable log.Outside log.slot (readHead (store.disk log.start)) store.disk
    durable
  header : log.Lists (readHead (store.disk log.start))
  lists : log.Lists log.lh

/-- The buffers outside the log hold these contents. -/
def Shows (log : Log) (store : Store) (contents : Nat → Block) : Prop :=
  ∀ b, log.Outside b → store.cache b = contents b

section Store

variable {log : Log} {store : Store} {durable contents : Nat → Block} {hb data : Block}
  {tail b : Nat} {blocks : List Nat}

theorem Log.Lists.nil (nonempty : 0 < log.size) : log.Lists [] :=
  ⟨by simp, nonempty, Nat.zero_le _⟩

theorem Log.Lists.start_foreign (lists : log.Lists blocks) :
    ¬ log.Outside log.start :=
  Log.not_outside_start (Nat.zero_lt_of_lt lists.inLog)

theorem Log.Lists.slot_foreign {i : Nat} (lists : log.Lists blocks) (inRange : i < blocks.length) :
    ¬ log.Outside (log.slot i) := by
  have inLog := lists.inLog
  exact Log.not_outside_slot (by omega)

theorem Log.start_ne_slot (log : Log) (i : Nat) : log.start ≠ log.slot i := by
  unfold Log.slot
  omega

theorem ne_of_outside {a : Nat} (outside : log.Outside b) (foreign : ¬ log.Outside a) : b ≠ a :=
  fun same => foreign (same ▸ outside)

theorem bwrite_cached {c : Nat} (same : store.cache c = store.disk c) :
    (store.bwrite b data).cache c = (store.bwrite b data).disk c := by
  by_cases isBlock : c = b
  · rw [isBlock, store.cache_bwrite_self, store.disk_bwrite_self]
  · rw [store.cache_bwrite_of_ne _ isBlock, store.disk_bwrite_of_ne _ isBlock, same]

theorem Shows.bwrite (shows : Shows log store contents) (foreign : ¬ log.Outside b) :
    Shows log (store.bwrite b data) contents := by
  intro c outside
  rw [store.cache_bwrite_of_ne _ (ne_of_outside outside foreign)]
  exact shows c outside

theorem Kept.writeLog (kept : Kept log store durable)
    (blank : readHead (store.disk log.start) = []) (inRange : tail < log.lh.length) :
    readHead ((writeLogRound log store tail b).disk log.start) = [] ∧
      Kept log (writeLogRound log store tail b) durable := by
  have foreign := kept.lists.slot_foreign inRange
  have stillBlank : readHead ((writeLogRound log store tail b).disk log.start) = [] := by
    rw [writeLogRound, store.disk_bwrite_of_ne _ (log.start_ne_slot tail), blank]
  refine ⟨stillBlank, fun c missing => bwrite_cached (kept.cached c missing), ?_, ?_, kept.lists⟩
  · have recoverable := kept.recoverable
    rw [blank] at recoverable
    rw [stillBlank]
    exact recoverable.update_foreign foreign (by simp)
  · rw [stillBlank]
    exact .nil (Nat.zero_lt_of_lt kept.lists.inLog)

def Copied (log : Log) (store : Store) (tail : Nat) : Prop :=
  ∀ i b, i < tail → log.lh[i]? = some b → store.disk (log.slot i) = store.cache b

theorem Copied.round (kept : Kept log store durable) (copied : Copied log store tail)
    (isEntry : log.lh[tail]? = some b) :
    Copied log (writeLogRound log store tail b) (tail + 1) := by
  obtain ⟨inRange, _⟩ := List.getElem?_eq_some_iff.mp isEntry
  intro i c below isOther
  have outside := kept.lists.outside c (List.mem_of_getElem? isOther)
  have notSlot := ne_of_outside outside (kept.lists.slot_foreign inRange)
  rw [writeLogRound, store.cache_bwrite_of_ne _ notSlot]
  by_cases isLast : i = tail
  · rw [isLast, isEntry] at isOther
    cases isOther
    rw [isLast, store.disk_bwrite_self]
  · have otherSlot : log.slot i ≠ log.slot tail := by
      unfold Log.slot
      omega
    rw [store.disk_bwrite_of_ne _ otherSlot]
    exact copied i c (by omega) isOther

/-- **The header write** makes what the buffers show durable. -/
theorem Kept.writeHead (kept : Kept log store durable) (shows : Shows log store contents)
    (copied : Copied log store log.lh.length) :
    Kept log (headRound log store) contents ∧
      Installing log (headRound log store).disk contents 0 := by
  have startForeign := kept.lists.start_foreign
  have header : readHead ((headRound log store).disk log.start) = log.lh := by
    rw [headRound, store.disk_bwrite_self]
    exact readHead_writeHead _ (Nat.lt_of_le_of_lt kept.lists.inHeader (by decide))
  have agree : AgreeOff log.Outside log.lh (headRound log store).disk contents := by
    intro c outside unlisted
    rw [headRound, store.disk_bwrite_of_ne _ (ne_of_outside outside startForeign),
      ← kept.cached c unlisted]
    exact shows c outside
  refine ⟨⟨fun c missing => bwrite_cached (kept.cached c missing), ?_, ?_, kept.lists⟩, header,
    agree⟩
  · rw [header]
    refine ⟨kept.lists.outside, fun i c isEntry => ?_, agree⟩
    obtain ⟨inRange, _⟩ := List.getElem?_eq_some_iff.mp isEntry
    rw [headRound, store.disk_bwrite_of_ne _ (log.start_ne_slot i).symm,
      copied i c inRange isEntry]
    exact shows c (kept.lists.outside c (List.mem_of_getElem? isEntry))
  · rw [header]
    exact kept.lists

theorem Kept.install (kept : Kept log store durable)
    (installing : Installing log store.disk durable tail) (isEntry : log.lh[tail]? = some b) :
    Kept log (installRound log store tail b) durable ∧
      Installing log (installRound log store tail b).disk durable (tail + 1) ∧
      (Shows log store durable → Shows log (installRound log store tail b) durable) := by
  obtain ⟨inRange, _⟩ := List.getElem?_eq_some_iff.mp isEntry
  have member := List.mem_of_getElem? isEntry
  have notStart := (ne_of_outside (kept.lists.outside b member) kept.lists.start_foreign).symm
  have recoverable := kept.recoverable
  rw [installing.header] at recoverable
  have slotUnlisted : log.slot tail ∉ log.lh := fun listed =>
    kept.lists.slot_foreign inRange (kept.lists.outside _ listed)
  have copy := kept.cached _ slotUnlisted
  have disk : (installRound log store tail b).disk =
      update store.disk b (store.disk (log.slot tail)) := by
    rw [← copy]
    rfl
  have header : readHead ((installRound log store tail b).disk log.start) = log.lh := by
    rw [disk, update_of_ne notStart, installing.header]
  refine ⟨⟨fun c missing => bwrite_cached (kept.cached c missing), ?_, ?_, kept.lists⟩,
    ⟨header, ?_⟩, fun shows c outside => ?_⟩
  · rw [header, disk]
    exact recoverable.install (fun j inRange => kept.lists.slot_foreign inRange) isEntry
  · rw [header]
    exact kept.lists
  · rw [disk]
    exact recoverable.install_agree installing.agree isEntry
  · by_cases same : c = b
    · rw [same, installRound, store.cache_bwrite_self, copy]
      exact recoverable.copies tail b isEntry
    · rw [installRound, store.cache_bwrite_of_ne _ same]
      exact shows c outside

theorem Installing.done {disk : Nat → Block} (installing : Installing log disk durable tail)
    (atEnd : log.lh[tail]? = none) : AgreeOff log.Outside [] disk durable := by
  have agree := installing.agree
  rwa [List.drop_eq_nil_of_le (List.getElem?_eq_none_iff.mp atEnd)] at agree

theorem Kept.forget (kept : Kept log store durable) (shows : Shows log store durable)
    (agree : AgreeOff log.Outside [] store.disk durable) :
    Kept { log with lh := [] } store durable where
  cached := by
    intro c _
    by_cases listed : c ∈ log.lh
    · have outside := kept.lists.outside c listed
      rw [shows c outside, agree c outside (by simp)]
    · exact kept.cached c listed
  recoverable := kept.recoverable
  header := ⟨kept.header.outside, kept.header.inLog, kept.header.inHeader⟩
  lists := ⟨by simp, Nat.zero_lt_of_lt kept.lists.inLog, Nat.zero_le _⟩

theorem Kept.erase (kept : Kept log store durable) (empty : log.lh = [])
    (agree : AgreeOff log.Outside [] store.disk durable) :
    readHead ((headRound log store).disk log.start) = [] ∧
      Kept log (headRound log store) durable := by
  have startForeign := kept.lists.start_foreign
  have blank : readHead ((headRound log store).disk log.start) = [] := by
    rw [headRound, store.disk_bwrite_self, empty]
    exact readHead_writeHead _ (by decide)
  refine ⟨blank, fun c missing => bwrite_cached (kept.cached c missing), ?_, ?_, kept.lists⟩
  · rw [blank]
    exact .of_empty (agree.update_foreign startForeign)
  · rw [blank]
    exact .nil (Nat.zero_lt_of_lt kept.lists.inLog)

theorem Kept.setLog {log' : Log} (kept : Kept log store durable)
    (start : log'.start = log.start) (size : log'.size = log.size) (lh : log'.lh = log.lh) :
    Kept log' store durable := by
  obtain ⟨_, _, _, _, _⟩ := log
  obtain ⟨_, _, _, _, _⟩ := log'
  cases start
  cases size
  cases lh
  exact ⟨kept.cached, kept.recoverable,
    ⟨kept.header.outside, kept.header.inLog, kept.header.inHeader⟩,
    ⟨kept.lists.outside, kept.lists.inLog, kept.lists.inHeader⟩⟩

end Store

/-! ## The invariant -/

def Point.Safe (log : Log) (store : Store) (durable : Nat → Block) : Point → Prop
  | .writeLog tail => Copied log store tail
  | .writeHead => Copied log store log.lh.length
  | .install tail => Installing log store.disk durable tail
  | .erase => AgreeOff log.Outside [] store.disk durable
  | _ => True

def Recovery.Safe (log : Log) (store : Store) (durable : Nat → Block) : Recovery → Prop
  | .readHead => True
  | .install tail => Installing log store.disk durable tail
  | .erase => AgreeOff log.Outside [] store.disk durable

structure Safe (disk : Nat → Block) (s : State P) : Prop where
  kept : Kept s.log s.store (s.durable disk)
  shows : s.recovery = none → Shows s.log s.store (s.current disk)
  /-- Outside the last part of a commit the header on disk is empty. -/
  blank : s.recovery = none →
    (∀ p point, s.work p = some (.commit point) → point.installing = false) →
    readHead (s.store.disk s.log.start) = []
  points : ∀ p point, s.work p = some (.commit point) →
    point.Safe s.log s.store (s.durable disk)
  recovering : ∀ recovery, s.recovery = some recovery →
    s.store.cache = s.store.disk ∧ recovery.Safe s.log s.store (s.durable disk)

section Steps

variable [DecidableEq P] [Fintype P] {s s' : State P} {disk : Nat → Block} {p : P}
  {op start size : Nat} {logged : List Nat} {point : Point} {log : Log} {data : Block}
  {recovery : Recovery}

omit [DecidableEq P] [Fintype P] in
/-- States in which nobody is in the middle of a commit or a recovery. -/
theorem Safe.of_calm (running : s.recovery = none) (kept : Kept s.log s.store (s.durable disk))
    (shows : Shows s.log s.store (s.current disk))
    (blank : readHead (s.store.disk s.log.start) = [])
    (calm : ∀ p point, s.work p = some (.commit point) → point = .start ∨ point = .finish) :
    Safe disk s where
  kept := kept
  shows := fun _ => shows
  blank := fun _ _ => blank
  points := by
    intro p point isCommit
    rcases calm p point isCommit with rfl | rfl <;> trivial
  recovering := by
    intro recovery isRecovery
    rw [running] at isRecovery
    cases isRecovery

omit [Fintype P] in
theorem calm_of_op {work : Work} (noCommits : ∀ q point, s.work q ≠ some (.commit point))
    (isOp : work.commits = 0) (q : P) (point : Point)
    (isCommit : (s.setWork p (some work)).work q = some (.commit point)) :
    point = .start ∨ point = .finish := by
  by_cases same : q = p
  · rw [same, State.setWork_own] at isCommit
    cases isCommit
    cases isOp
  · rw [State.setWork_others _ _ q same] at isCommit
    exact absurd isCommit (noCommits q point)

theorem Safe.blank_of_op (safe : Safe disk s) (orderly : Orderly s)
    (isOp : s.work p = some (.op op logged)) : readHead (s.store.disk s.log.start) = [] :=
  safe.blank (orderly.running (p := p) (by simp [isOp]))
    fun q point isCommit => absurd isCommit ((orderly.of_op isOp).2.2 q point)

theorem Safe.blank_of_point (safe : Safe disk s) (orderly : Orderly s)
    (isCommit : s.work p = some (.commit point)) (before : point.installing = false) :
    readHead (s.store.disk s.log.start) = [] := by
  obtain ⟨_, _, alone⟩ := orderly.of_commit isCommit
  refine safe.blank (orderly.running (p := p) (by simp [isCommit])) fun q other isOther => ?_
  by_cases same : q = p
  · rw [same, isCommit] at isOther
    cases isOther
    exact before
  · rw [alone q same] at isOther
    cases isOther

theorem Safe.beginOp (safe : Safe disk s) (orderly : Orderly s) (running : s.recovery = none)
    (began : beginOp s.log = some log) :
    Safe disk ({ s with log, nextOp := s.nextOp + 1 }.setWork p (some (.op s.nextOp []))) := by
  obtain ⟨quiet, _, rfl⟩ := beginOp_eq began
  have noCommits := orderly.no_commits quiet
  refine .of_calm running (safe.kept.setLog rfl rfl rfl) (safe.shows running) ?_
    (calm_of_op (s := { s with log := _, nextOp := _ }) noCommits rfl)
  exact safe.blank running fun q point isCommit => absurd isCommit (noCommits q point)

/-- An update changes the buffer and the current contents alike. -/
theorem Safe.logWrite {blockno : Nat} (safe : Safe disk s) (orderly : Orderly s)
    (isOp : s.work p = some (.op op logged)) (outside : s.log.Outside blockno)
    (wrote : logWrite s.log blockno = .ok log) :
    Safe disk ({ s with
      log
      store := { s.store with cache := update s.store.cache blockno data }
      pending := s.pending ++ [Update.mk op blockno data] }.setWork p
        (some (.op op (absorb blockno logged)))) := by
  obtain ⟨small, inLog, rfl⟩ := logWrite_eq wrote
  have running := orderly.running (p := p) (by simp [isOp])
  have length := length_absorb blockno s.log.lh
  refine .of_calm running ⟨?_, safe.kept.recoverable, ?_, ?_, ?_, ?_⟩ ?_
    (safe.blank_of_op orderly isOp)
    (calm_of_op (s := { s with log := _, store := _, pending := _ }) (orderly.of_op isOp).2.2 rfl)
  · intro b missing
    have different : b ≠ blockno := fun same => missing (mem_absorb.mpr (.inl same))
    show update s.store.cache blockno data b = s.store.disk b
    rw [update_of_ne different]
    exact safe.kept.cached b fun member => missing (mem_absorb.mpr (.inr member))
  · exact ⟨safe.kept.header.outside, safe.kept.header.inLog, safe.kept.header.inHeader⟩
  · intro b member
    rcases mem_absorb.mp member with rfl | old
    · exact outside
    · exact safe.kept.lists.outside b old
  · show (absorb blockno s.log.lh).length < s.log.size
    split at length <;> omega
  · show (absorb blockno s.log.lh).length ≤ LOGSIZE
    split at length <;> omega
  · intro b bOutside
    show update s.store.cache blockno data b =
      replay (s.durable disk) ((s.pending ++ [Update.mk op blockno data]).map Update.write) b
    rw [List.map_append, List.map_singleton, Update.write, replay_concat]
    by_cases same : b = blockno
    · rw [same, update_self, update_self]
    · rw [update_of_ne same, update_of_ne same]
      exact safe.shows running b bOutside

theorem Safe.endOp {doCommit : Bool} (safe : Safe disk s) (orderly : Orderly s)
    (isOp : s.work p = some (.op op logged)) (ended : endOp s.log = .ok (log, doCommit)) :
    Safe disk ({ s with log }.setWork p
      (if doCommit then some (.commit .start) else none)) := by
  obtain ⟨_, rfl, _⟩ := endOp_eq ended
  have running := orderly.running (p := p) (by simp [isOp])
  refine .of_calm running (safe.kept.setLog rfl rfl rfl) (safe.shows running)
    (safe.blank_of_op orderly isOp) ?_
  intro q point isCommit
  by_cases same : q = p
  · rw [same, State.setWork_own] at isCommit
    split at isCommit
    · cases isCommit
      exact .inl rfl
    · cases isCommit
  · rw [State.setWork_others _ _ q same] at isCommit
    exact absurd isCommit ((orderly.of_op isOp).2.2 q point)

theorem Safe.commitMove {point' : Point} (orderly : Orderly s)
    (isCommit : s.work p = some (.commit point))
    (work : s'.work = update s.work p (some (.commit point')))
    (recovery : s'.recovery = s.recovery) (kept : Kept s'.log s'.store (s'.durable disk))
    (shows : Shows s'.log s'.store (s'.current disk))
    (blank : point'.installing = false → readHead (s'.store.disk s'.log.start) = [])
    (isSafe : point'.Safe s'.log s'.store (s'.durable disk)) : Safe disk s' := by
  obtain ⟨_, _, alone⟩ := orderly.of_commit isCommit
  have running : s'.recovery = none := by
    rw [recovery]
    exact orderly.running (p := p) (by simp [isCommit])
  have own : s'.work p = some (.commit point') := by rw [work, update_self]
  refine ⟨kept, fun _ => shows, fun _ before => blank (before p point' own), ?_, ?_⟩
  · intro q other isOther
    by_cases same : q = p
    · rw [same, own] at isOther
      cases isOther
      exact isSafe
    · rw [work, update_of_ne same, alone q same] at isOther
      cases isOther
  · intro recovery isRecovery
    rw [running] at isRecovery
    cases isRecovery

omit [Fintype P] in
theorem durable_writeHead (s : State P) (p : P) (disk : Nat → Block) :
    (s.commitStep p .writeHead).durable disk = s.current disk := by
  show replay disk ((s.commits ++ [s.pending]).flatten.map Update.write) = _
  rw [List.flatten_append, List.map_append, replay_append]
  simp [State.current, State.durable]

theorem Safe.commitStep (safe : Safe disk s) (orderly : Orderly s)
    (isCommit : s.work p = some (.commit point)) : Safe disk (s.commitStep p point) := by
  have running := orderly.running (p := p) (by simp [isCommit])
  have shows := safe.shows running
  have atPoint := safe.points p point isCommit
  cases point with
  | start =>
      have blank := safe.blank_of_point orderly isCommit rfl
      refine .commitMove orderly isCommit rfl rfl safe.kept shows (fun _ => blank) ?_
      split
      · intro i b below
        exact absurd below (Nat.not_lt_zero i)
      · trivial
  | writeLog tail =>
      have blank := safe.blank_of_point orderly isCommit rfl
      dsimp only [State.commitStep]
      split
      · rename_i b isEntry
        obtain ⟨inRange, _⟩ := List.getElem?_eq_some_iff.mp isEntry
        obtain ⟨stillBlank, kept⟩ := safe.kept.writeLog blank inRange
        exact .commitMove orderly isCommit rfl rfl kept
          (shows.bwrite (safe.kept.lists.slot_foreign inRange)) (fun _ => stillBlank)
          (Copied.round safe.kept atPoint isEntry)
      · rename_i atEnd
        refine .commitMove orderly isCommit rfl rfl safe.kept shows (fun _ => blank) ?_
        intro i b inRange
        exact atPoint i b (Nat.lt_of_lt_of_le inRange (List.getElem?_eq_none_iff.mp atEnd))
  | writeHead =>
      obtain ⟨kept, installing⟩ := safe.kept.writeHead shows atPoint
      refine .commitMove orderly isCommit rfl rfl ?_ ?_ (by simp [Point.installing]) ?_
      · rw [durable_writeHead]
        exact kept
      · rw [State.current_of_nil rfl, durable_writeHead]
        exact shows.bwrite safe.kept.lists.start_foreign
      · rw [durable_writeHead]
        exact installing
  | install tail =>
      have isCurrent : s.current disk = s.durable disk :=
        State.current_of_nil (orderly.installed p _ isCommit rfl)
      rw [isCurrent] at shows
      dsimp only [State.commitStep]
      split
      · rename_i b isEntry
        obtain ⟨kept, installing, stillShows⟩ := safe.kept.install atPoint isEntry
        refine .commitMove orderly isCommit rfl rfl kept ?_ (by simp [Point.installing]) installing
        exact isCurrent.symm ▸ stillShows shows
      · rename_i atEnd
        have agree := Installing.done atPoint atEnd
        refine .commitMove orderly isCommit rfl rfl (safe.kept.forget shows agree) ?_
          (by simp [Point.installing]) agree
        exact isCurrent.symm ▸ shows
  | erase =>
      have empty := orderly.erased (.inr ⟨p, isCommit⟩)
      obtain ⟨blank, kept⟩ := safe.kept.erase empty atPoint
      exact .commitMove orderly isCommit rfl rfl kept
        (shows.bwrite safe.kept.lists.start_foreign) (fun _ => blank) trivial
  | finish =>
      have blank := safe.blank_of_point orderly isCommit rfl
      refine .of_calm running (safe.kept.setLog rfl rfl rfl) shows blank ?_
      intro q other isOther
      obtain ⟨_, _, alone⟩ := orderly.of_commit isCommit
      by_cases same : q = p
      · rw [same] at isOther
        exact absurd ((State.setWork_own _ _).symm.trans isOther) (by simp)
      · exact absurd ((alone q same).symm.trans
          ((State.setWork_others _ _ q same).symm.trans isOther)) (by simp)

omit [DecidableEq P] [Fintype P] in
theorem Safe.of_recovering (idle : ∀ p, s.work p = none) (isRecovery : s.recovery = some recovery)
    (kept : Kept s.log s.store (s.durable disk)) (fresh : s.store.cache = s.store.disk)
    (isSafe : recovery.Safe s.log s.store (s.durable disk)) : Safe disk s where
  kept := kept
  shows := by
    intro running
    rw [isRecovery] at running
    cases running
  blank := by
    intro running
    rw [isRecovery] at running
    cases running
  points := by
    intro p point isCommit
    rw [idle p] at isCommit
    cases isCommit
  recovering := by
    intro other isOther
    rw [isRecovery] at isOther
    cases isOther
    exact ⟨fresh, isSafe⟩

omit [DecidableEq P] [Fintype P] in
theorem Safe.crash (safe : Safe disk s) : Safe disk s.crash := by
  refine .of_recovering (fun _ => rfl) rfl ⟨fun _ _ => rfl, safe.kept.recoverable, ?_, ?_⟩ rfl
    trivial
  · exact ⟨safe.kept.header.outside, safe.kept.header.inLog, safe.kept.header.inHeader⟩
  · exact .nil (Nat.zero_lt_of_lt safe.kept.lists.inLog)

theorem bwrite_fresh {store : Store} {b : Nat} (fresh : store.cache = store.disk) :
    (store.bwrite b data).cache = (store.bwrite b data).disk :=
  funext fun c => bwrite_cached (congrFun fresh c)

omit [DecidableEq P] in
theorem Safe.recoverStep (safe : Safe disk s) (orderly : Orderly s)
    (isRecovery : s.recovery = some recovery) : Safe disk (s.recoverStep recovery) := by
  obtain ⟨nothing, idle⟩ := orderly.recovering (by simp [isRecovery])
  obtain ⟨fresh, atPoint⟩ := safe.recovering recovery isRecovery
  cases recovery with
  | readHead =>
      have header : readHead (s.store.cache s.log.start) = readHead (s.store.disk s.log.start) := by
        rw [fresh]
      refine .of_recovering idle rfl ⟨fun b _ => congrFun fresh b, safe.kept.recoverable, ?_, ?_⟩
        fresh ⟨header.symm, ?_⟩
      · exact ⟨safe.kept.header.outside, safe.kept.header.inLog, safe.kept.header.inHeader⟩
      · have lists := safe.kept.header
        rw [← header] at lists
        exact ⟨lists.outside, lists.inLog, lists.inHeader⟩
      · have agree := safe.kept.recoverable.agree
        rw [← header] at agree
        exact agree
  | install tail =>
      dsimp only [State.recoverStep]
      split
      · rename_i b isEntry
        obtain ⟨kept, installing, _⟩ := safe.kept.install atPoint isEntry
        exact .of_recovering idle rfl kept (bwrite_fresh fresh) installing
      · rename_i atEnd
        have agree := Installing.done atPoint atEnd
        refine .of_recovering idle rfl (safe.kept.forget ?_ agree) fresh agree
        intro c outside
        rw [fresh]
        exact agree c outside (by simp)
  | erase =>
      obtain ⟨blank, kept⟩ := safe.kept.erase (orderly.erased (.inl isRecovery)) atPoint
      refine .of_calm rfl kept ?_ blank fun q point isCommit => ?_
      · show Shows s.log _ (s.current disk)
        rw [State.current_of_nil nothing]
        refine Shows.bwrite (fun c outside => ?_) safe.kept.lists.start_foreign
        rw [fresh]
        exact atPoint c outside (by simp)
      · exact absurd ((idle q).symm.trans isCommit) (by simp)

/-- Operations log blocks outside the log only. -/
def HomeOnly (s : State P) : Action P → Prop
  | .logWrite _ blockno _ => s.log.Outside blockno
  | _ => True

instance (s : State P) (action : Action P) : Decidable (HomeOnly s action) := by
  unfold HomeOnly
  split <;> infer_instance

/-- **Every step keeps the invariant.** -/
theorem Safe.step {action : Action P} (safe : Safe disk s) (orderly : Orderly s)
    (home : HomeOnly s action) (stepped : step s action = some s') : Safe disk s' := by
  cases Stepped.of_step stepped with
  | beginOp running free began => exact safe.beginOp orderly running began
  | logWrite isOp wrote => exact safe.logWrite orderly isOp home wrote
  | endOp isOp ended => exact safe.endOp orderly isOp ended
  | commit isCommit => exact safe.commitStep orderly isCommit
  | @recycle b unlogged =>
      -- The buffer is fetched again with the contents it had.
      have same : update s.store.cache b (s.store.disk b) = s.store.cache := by
        rw [← safe.kept.cached b unlogged, update_eq_self]
      rw [same]
      exact safe
  | crash => exact safe.crash
  | recover isRecovery => exact safe.recoverStep orderly isRecovery

omit [DecidableEq P] [Fintype P] in
theorem Safe.boot (nonempty : 0 < size) (clean : readHead (disk start) = []) :
    Safe disk (boot P disk start size) := by
  refine .of_recovering (fun _ => rfl) rfl ⟨fun _ _ => rfl, ?_, ?_, .nil nonempty⟩ rfl trivial
  · show Recoverable _ _ (readHead (disk start)) disk disk
    rw [clean]
    exact .of_empty fun _ _ _ => rfl
  · show Log.Lists _ (readHead (disk start))
    rw [clean]
    exact .nil nonempty

theorem Reachable.safe (nonempty : 0 < size) (clean : readHead (disk start) = [])
    (reachable : Reachable HomeOnly (boot P disk start size) s) : Safe disk s := by
  induction reachable with
  | start => exact .boot nonempty clean
  | step reachable home stepped ih =>
      exact ih.step reachable.orderly home stepped

end Steps

/-! ## Crashes and recovery -/

section Recovery

variable [DecidableEq P] [Fintype P] {s t : State P} {disk : Nat → Block} {start size : Nat}

/-- The states after a crash of `s`, while `recover_from_log` runs and is started
over by further crashes. -/
inductive Rebooting (s : State P) : State P → Prop where
  | crash : Rebooting s s.crash
  | recover {t : State P} {recovery : Recovery} (rebooting : Rebooting s t)
      (isRecovery : t.recovery = some recovery) : Rebooting s (t.recoverStep recovery)
  | again {t : State P} (rebooting : Rebooting s t) : Rebooting s t.crash

omit [Fintype P] in
theorem Rebooting.reachable {allowed : State P → Action P → Prop} {origin : State P}
    (reachable : Reachable allowed origin s) (crashes : ∀ t, allowed t .crash)
    (recoveries : ∀ t, allowed t .recover) (rebooting : Rebooting s t) :
    Reachable allowed origin t := by
  induction rebooting with
  | crash => exact reachable.step (crashes _) rfl
  | recover _ isRecovery ih =>
      exact ih.step (recoveries _) (by simp [step, isRecovery])
  | again _ ih => exact ih.step (crashes _) rfl

omit [DecidableEq P] [Fintype P] in
theorem Rebooting.commits_eq (rebooting : Rebooting s t) : t.commits = s.commits := by
  induction rebooting with
  | crash => rfl
  | @recover t recovery _ _ ih =>
      rw [← ih]
      cases recovery with
      | readHead => rfl
      | install tail =>
          dsimp only [State.recoverStep]
          split <;> rfl
      | erase => rfl
  | again _ ih => exact ih

omit [DecidableEq P] [Fintype P] in
theorem Rebooting.idle (rebooting : Rebooting s t) (p : P) : t.work p = none := by
  induction rebooting with
  | crash => rfl
  | @recover t recovery _ _ ih =>
      rw [← ih]
      cases recovery with
      | readHead => rfl
      | install tail =>
          dsimp only [State.recoverStep]
          split <;> rfl
      | erase => rfl
  | again _ _ => rfl

omit [DecidableEq P] [Fintype P] in
/-- The installation loop ends, by induction on the entries left. -/
theorem Rebooting.finish_install {left tail : Nat} (rebooting : Rebooting s t)
    (isRecovery : t.recovery = some (.install tail)) (isLeft : t.log.lh.length - tail = left) :
    ∃ t', Rebooting s t' ∧ t'.recovery = some .erase := by
  induction left generalizing t tail with
  | zero =>
      have atEnd : t.log.lh[tail]? = none := List.getElem?_eq_none (by omega)
      have next := rebooting.recover isRecovery
      simp only [State.recoverStep, atEnd] at next
      exact ⟨_, next, rfl⟩
  | succ left ih =>
      have isEntry : t.log.lh[tail]? = some (t.log.lh.get ⟨tail, by omega⟩) :=
        List.getElem?_eq_getElem _
      have next := rebooting.recover isRecovery
      simp only [State.recoverStep, isEntry] at next
      exact ih next rfl (by simp only; omega)

omit [DecidableEq P] [Fintype P] in
theorem exists_recovered (s : State P) : ∃ t, Rebooting s t ∧ t.recovery = none := by
  obtain ⟨t, rebooting, isErase⟩ :=
    (Rebooting.crash.recover (s := s) rfl).finish_install rfl rfl
  exact ⟨_, rebooting.recover isErase, rfl⟩

/-- **Crash atomicity.** Whenever the machine crashes, recovery can run to
completion, and whenever it does, after any number of further crashes, the blocks
outside the log hold what the commits whose header reached the disk have written,
in order, and nothing else. An operation with an update in a commit is over and
has no update outside it. -/
theorem crash_atomicity (nonempty : 0 < size) (clean : readHead (disk start) = [])
    (reachable : Reachable HomeOnly (boot P disk start size) s) :
    (∃ t, Rebooting s t ∧ t.recovery = none) ∧
      (∀ t, Rebooting s t → t.recovery = none → t.commits = s.commits ∧
        ∀ b, ¬ (start ≤ b ∧ b < start + size) →
          t.store.disk b = replay disk (s.commits.flatten.map Update.write) b) ∧
      ∀ update ∈ s.commits.flatten, (∀ other ∈ s.pending, update.op ≠ other.op) ∧
        ∀ p op logged, s.work p = some (.op op logged) → update.op ≠ op := by
  refine ⟨exists_recovered s, fun t rebooting running => ?_, fun update member => ?_⟩
  · have after := rebooting.reachable reachable (fun _ => trivial) (fun _ => trivial)
    have safe := after.safe nonempty clean
    have blank := safe.blank running (by simp [rebooting.idle])
    have recoverable := safe.kept.recoverable
    rw [blank] at recoverable
    refine ⟨rebooting.commits_eq, fun b outside => ?_⟩
    have isHome : t.log.Outside b := by
      rw [Log.Outside, after.geometry.1, after.geometry.2]
      exact outside
    rw [← rebooting.commits_eq]
    exact recoverable.agree b isHome (by simp)
  · have orderly := reachable.orderly
    obtain ⟨transaction, isCommit, inCommit⟩ := List.mem_flatten.mp member
    refine ⟨fun other pending => ?_,
      fun p op logged isOp => (orderly.numbered.2 p op logged isOp).2 update member⟩
    exact (List.pairwise_append.mp orderly.apart).2.2 transaction isCommit s.pending (by simp)
      update inCommit other pending

/-- A crash after the first of two blocks is installed: the second is there after
recovery. -/
theorem crash_atomicity_installing : ∃ s : State (Fin 1),
    Reachable HomeOnly (boot (Fin 1) (fun _ _ => 0) 2 LOGSIZE) s ∧
    (s.store.disk 40).word 0 = 7 ∧ (s.store.disk 41).word 0 = 0 ∧
    ∃ t, Rebooting s t ∧ t.recovery = none ∧ (t.store.disk 40).word 0 = 7 ∧
      (t.store.disk 41).word 0 = 8 := by
  obtain ⟨s, reachable, installed, waiting, first, second⟩ := Reachable.exists_of_follow
    HomeOnly (boot (Fin 1) (fun _ _ => 0) 2 LOGSIZE)
    [.recover, .recover, .recover, .beginOp 0, .logWrite 0 40 fun _ => 7,
      .logWrite 0 41 fun _ => 8, .endOp 0, .commit 0, .commit 0, .commit 0, .commit 0,
      .commit 0, .commit 0]
    (fun s => (s.store.disk 40).word 0 = 7 ∧ (s.store.disk 41).word 0 = 0 ∧
      (replay (fun _ _ => 0) (s.commits.flatten.map Update.write) 40 : Block).word 0 = 7 ∧
      (replay (fun _ _ => 0) (s.commits.flatten.map Update.write) 41 : Block).word 0 = 8)
      (by decide +kernel)
  obtain ⟨⟨t, rebooting, running⟩, contents, _⟩ :=
    crash_atomicity (by decide) (by decide +kernel) reachable
  obtain ⟨_, same⟩ := contents t rebooting running
  refine ⟨s, reachable, installed, waiting, t, rebooting, running, ?_, ?_⟩
  · rw [same 40 (by decide)]
    exact first
  · rw [same 41 (by decide)]
    exact second

end Recovery

end Xv6.Logging
