import Xv6.Fs.Reading

/-!
Contract: the contents of a file, and what `writei` makes of them.

Owns: the contents as a list of bytes, that `readi` delivers a part of them, what the loop of
`writei` has written and logged wherever it stops, and from that what `writei` leaves.

Does not own: the callers that write a file in several parts.
-/

namespace Xv6.Fs

open Xv6.Kernel
open Xv6.Format
open Function

/-! ## Contents -/

def HasBlock (blocks : Nat → Block) (dinode : Dinode) (p : Nat) : Prop :=
  ∃ inFile : p / BSIZE < MAXFILE, held blocks dinode (contentSlot ⟨p / BSIZE, inFile⟩) ≠ 0

/-- Byte `p` of the contents, in the block `bmap` finds for it. -/
def byteAt (blocks : Nat → Block) (dinode : Dinode) (p : Nat) : Byte :=
  if inFile : p / BSIZE < MAXFILE then
    blocks (held blocks dinode (contentSlot ⟨p / BSIZE, inFile⟩)).toNat (p % BSIZE)
  else
    0

def content (blocks : Nat → Block) (dinode : Dinode) : List Byte :=
  firstBytes (byteAt blocks dinode) dinode.size.toNat

section Contents

variable {blocks blocks' : Nat → Block} {dinode : Dinode} {p upto : Nat} {old new : List Byte}

theorem content_length (blocks : Nat → Block) (dinode : Dinode) :
    (content blocks dinode).length = dinode.size.toNat := firstBytes_length ..

theorem byteAt_of_lt (inFile : p / BSIZE < MAXFILE) : byteAt blocks dinode p =
    blocks (held blocks dinode (contentSlot ⟨p / BSIZE, inFile⟩)).toNat (p % BSIZE) :=
      dif_pos inFile

theorem MappedTo.hasBlock (mapped : MappedTo blocks dinode upto) (below : p < upto) :
    HasBlock blocks dinode p :=
  mapped (p / BSIZE) (Nat.lt_of_le_of_lt (Nat.div_mul_le_self p BSIZE) below)

theorem mappedTo_of_hasBlock (there : ∀ p, p < upto → HasBlock blocks dinode p) :
    MappedTo blocks dinode upto := by
  intro bn below
  have isBlock := there (bn * BSIZE) below
  unfold HasBlock at isBlock
  rwa [Nat.mul_div_cancel bn (by decide)] at isBlock

theorem MappedTo.le (mapped : MappedTo blocks dinode upto) : upto ≤ MAXFILE * BSIZE := by
  by_contra longer
  obtain ⟨inFile, _⟩ := mapped.hasBlock (show MAXFILE * BSIZE < upto by omega)
  rw [Nat.mul_div_cancel _ (by decide)] at inFile
  omega

theorem stored_content (mapped : MappedTo blocks dinode dinode.size.toNat) :
    Stored blocks dinode (content blocks dinode) := by
  intro off byte isByte
  have inside := (List.getElem?_eq_some_iff.mp isByte).1
  rw [content_length] at inside
  obtain ⟨inFile, number⟩ := mapped.hasBlock inside
  rw [content, getElem?_firstBytes _ inside, byteAt_of_lt inFile] at isByte
  exact ⟨inFile, number, Option.some.inj isByte⟩

theorem byteAt_congr (there : HasBlock blocks dinode p)
    (same : ∀ slot, held blocks dinode slot ≠ 0 →
      blocks' (held blocks dinode slot).toNat = blocks (held blocks dinode slot).toNat) :
    byteAt blocks' dinode p = byteAt blocks dinode p := by
  obtain ⟨inFile, number⟩ := there
  have sameSlot : held blocks' dinode (contentSlot ⟨p / BSIZE, inFile⟩) =
      held blocks dinode (contentSlot ⟨p / BSIZE, inFile⟩) :=
    held_congr _ fun pointer => same (.addr indirect) pointer
  rw [byteAt_of_lt inFile, byteAt_of_lt inFile, sameSlot, same _ number]

theorem content_congr (mapped : MappedTo blocks dinode dinode.size.toNat)
    (same : ∀ slot, held blocks dinode slot ≠ 0 →
      blocks' (held blocks dinode slot).toNat = blocks (held blocks dinode slot).toNat) :
    content blocks' dinode = content blocks dinode := by
  refine List.map_congr_left fun p inside => ?_
  exact byteAt_congr (mapped.hasBlock (List.mem_range.mp inside)) same

theorem held_size (blocks : Nat → Block) (dinode : Dinode) (size : BitVec 32) (slot : Slot) :
    held blocks { dinode with size } slot = held blocks dinode slot := by
  cases slot <;> rfl

theorem byteAt_size (blocks : Nat → Block) (dinode : Dinode) (size : BitVec 32) (p : Nat) :
    byteAt blocks { dinode with size } p = byteAt blocks dinode p := by
  simp only [byteAt, held_size]

def overwrite (old : List Byte) (off : Nat) (new : List Byte) : List Byte :=
  old.take off ++ new ++ old.drop (off + new.length)

theorem overwrite_length {off : Nat} (inside : off ≤ old.length) :
    (overwrite old off new).length = max old.length (off + new.length) := by
  simp only [overwrite, List.length_append, List.length_take, List.length_drop]
  omega

theorem getElem?_overwrite {off : Nat} (inside : off ≤ old.length) (p : Nat) :
    (overwrite old off new)[p]? =
      if off ≤ p ∧ p < off + new.length then new[p - off]? else old[p]? := by
  have isTaken : (old.take off).length = off := by
    rw [List.length_take]
    omega
  unfold overwrite
  rcases Nat.lt_or_ge p off with before | after
  · rw [if_neg (by omega), List.append_assoc, List.getElem?_append_left (by omega),
      List.getElem?_take_of_lt before]
  · rw [List.append_assoc, List.getElem?_append_right (by omega), isTaken]
    rcases Nat.lt_or_ge p (off + new.length) with within | beyond
    · rw [if_pos ⟨after, within⟩, List.getElem?_append_left (by omega)]
    · rw [if_neg (by omega), List.getElem?_append_right (by omega), List.getElem?_drop]
      exact congrArg (old[·]?) (by omega)

end Contents

variable {sb : Superblock} {fs fs' fs'' : FileSystem} {ip : InodeId}
  {off count p available t k : Nat} {n : BitVec 32} {src : Bytes} {bns : Fin MAXFILE → Prop}

def FileSystem.content (fs : FileSystem) (ip : InodeId) : List Byte :=
  Fs.content fs.blocks (fs.itable ip).toDinode

theorem FileSystem.content_length (fs : FileSystem) (ip : InodeId) :
    (fs.content ip).length = (fs.itable ip).size.toNat := Fs.content_length ..

/-- **`readi` delivers the part of the contents that was asked for.** The sum is one of `uint`s:
a range that wraps is empty. -/
theorem readi_content (sb : Superblock) (mapped : MappedTo fs.blocks (fs.itable ip).toDinode
      (fs.itable ip).size.toNat) {user : Bool} {space : Space} {dst : Nat} {off : BitVec 32}
    (writable : Writable space user dst
      (min (off + n).toNat (fs.itable ip).size.toNat - off.toNat)) :
    readi sb fs ip user space dst off n =
      .ok ((min (off + n).toNat (fs.itable ip).size.toNat - off.toNat : Nat),
        space.store dst (fun i => (fs.content ip).getD (off.toNat + i) 0)
          (min (off + n).toNat (fs.itable ip).size.toNat - off.toNat), fs) := by
  have stored : Stored fs.blocks (fs.itable ip).toDinode (fs.content ip) := stored_content mapped
  unfold readi
  dsimp only
  by_cases outside : off > (fs.itable ip).size ∨ off + n < off
  · have nothing : min (off + n).toNat (fs.itable ip).size.toNat - off.toNat = 0 := by
      rcases outside with beyond | wraps
      · have less := BitVec.lt_def.mp beyond
        omega
      · have less := BitVec.lt_def.mp wraps
        omega
    rw [if_pos outside, nothing, space.store_zero]
    rfl
  · rw [not_or] at outside
    obtain ⟨startsInside, noWrap⟩ := outside
    have isLength : (if off + n > (fs.itable ip).size then (fs.itable ip).size - off else n).toNat =
        min (off + n).toNat (fs.itable ip).size.toNat - off.toNat := by
      split <;> bv_omega
    rw [if_neg (by rw [not_or]; exact ⟨startsInside, noWrap⟩), isLength]
    refine readLoop_stored sb stored (Nat.le_refl _) (Nat.zero_le _) ?_ writable
    rw [fs.content_length]
    have start : off.toNat ≤ (fs.itable ip).size.toNat := by
      have notLess := BitVec.lt_def.not.mp startsInside
      omega
    omega

/-! ## What a write changes -/

/-- The `count` bytes at `src` have been written at `off`, and nothing else has changed in the
contents of the inodes. -/
structure Wrote (sb : Superblock) (fs fs' : FileSystem) (ip : InodeId) (off : Nat) (src : Bytes)
    (count : Nat) : Prop extends Grown sb fs fs' ip where
  beside : Beside sb fs fs' ip
  there : ∀ p, off ≤ p → p < off + count → HasBlock fs'.blocks (fs'.itable ip).toDinode p
  written : ∀ p, off ≤ p → p < off + count →
    byteAt fs'.blocks (fs'.itable ip).toDinode p = src (p - off)
  rest : ∀ p, HasBlock fs.blocks (fs.itable ip).toDinode p → ¬ (off ≤ p ∧ p < off + count) →
    byteAt fs'.blocks (fs'.itable ip).toDinode p = byteAt fs.blocks (fs.itable ip).toDinode p

theorem Grown.hasBlock (grown : Grown sb fs fs' ip)
    (there : HasBlock fs.blocks (fs.itable ip).toDinode p) :
    HasBlock fs'.blocks (fs'.itable ip).toDinode p := by
  obtain ⟨inFile, number⟩ := there
  refine ⟨inFile, ?_⟩
  rwa [grown.kept _ number]

theorem Grown.byteAt_eq (grown : Grown sb fs fs' ip) {inFile : p / BSIZE < MAXFILE}
    (number : fs.slots ip (contentSlot ⟨p / BSIZE, inFile⟩) ≠ 0)
    (same : fs'.blocks (fs.slots ip (contentSlot ⟨p / BSIZE, inFile⟩)).toNat =
      fs.blocks (fs.slots ip (contentSlot ⟨p / BSIZE, inFile⟩)).toNat) :
    byteAt fs'.blocks (fs'.itable ip).toDinode p = byteAt fs.blocks (fs.itable ip).toDinode p := by
  rw [byteAt_of_lt inFile, byteAt_of_lt inFile, grown.kept _ number]
  exact congrFun same _

theorem Extended.wrote (extended : Extended sb fs fs' ip bns) (off : Nat) (src : Bytes) :
    Wrote sb fs fs' ip off src 0 := by
  refine ⟨extended.toGrown, extended.beside, fun p low high => ?_, fun p low high => ?_, ?_⟩
  · omega
  · omega
  · rintro p ⟨inFile, number⟩ _
    exact extended.byteAt_eq number (extended.contents _ number)

theorem Editing.wrote (editing : Editing sb fs ip) {inFile : off / BSIZE < MAXFILE}
    {addr : BitVec 32} (isHeld : fs.slots ip (contentSlot ⟨off / BSIZE, inFile⟩) = addr)
    (number : addr ≠ 0) (inBlock : count ≤ BSIZE - off % BSIZE)
    (blocks : fs'.blocks = update fs.blocks addr.toNat
      (memmove (fs.blocks addr.toNat) (off % BSIZE) src count)) (sameTable : fs'.itable = fs.itable)
    (sameAllocations : fs'.allocations = fs.allocations) :
    Editing sb fs' ip ∧ Wrote sb fs fs' ip off src count := by
  obtain ⟨editing', grown, beside, others⟩ :=
    editing.write_content isHeld number blocks sameTable sameAllocations
  -- A byte of the block that is written.
  have inside : ∀ p, p / BSIZE = off / BSIZE → byteAt fs'.blocks (fs'.itable ip).toDinode p =
      memmove (fs.blocks addr.toNat) (off % BSIZE) src count (p % BSIZE) := by
    intro p sameBlock
    have pInFile : p / BSIZE < MAXFILE := by rwa [sameBlock]
    have isSlot : fs.slots ip (contentSlot ⟨p / BSIZE, pInFile⟩) = addr := by
      simp only [sameBlock]
      exact isHeld
    have kept := grown.kept (contentSlot ⟨p / BSIZE, pInFile⟩)
      (by rw [← FileSystem.slots, isSlot]; exact number)
    rw [← FileSystem.slots, ← FileSystem.slots, isSlot] at kept
    rw [byteAt_of_lt pInFile, ← FileSystem.slots, kept, blocks, update_self]
  have sameBlock : ∀ p, off ≤ p → p < off + count → p / BSIZE = off / BSIZE ∧
      p % BSIZE = off % BSIZE + (p - off) := by
    intro p low high
    unfold BSIZE at *
    omega
  refine ⟨editing', grown, beside, ?_, ?_, ?_⟩
  · intro p low high
    have isBlock : HasBlock fs.blocks (fs.itable ip).toDinode off :=
      ⟨inFile, by rw [← FileSystem.slots, isHeld]; exact number⟩
    have there := grown.hasBlock isBlock
    unfold HasBlock at there ⊢
    simp only [(sameBlock p low high).1]
    exact there
  · intro p low high
    obtain ⟨sameQuotient, place⟩ := sameBlock p low high
    rw [inside p sameQuotient, memmove, if_pos (by omega)]
    exact congrArg src (by omega)
  · rintro p ⟨pInFile, pNumber⟩ outside
    by_cases isWritten : p / BSIZE = off / BSIZE
    · have place : ¬ (off % BSIZE ≤ p % BSIZE ∧ p % BSIZE < off % BSIZE + count) := by
        unfold BSIZE at *
        omega
      have isSlot : fs.slots ip (contentSlot ⟨p / BSIZE, pInFile⟩) = addr := by
        simp only [isWritten]
        exact isHeld
      rw [inside p isWritten, memmove, if_neg place, byteAt_of_lt pInFile,
        ← FileSystem.slots, isSlot]
    · exact grown.byteAt_eq pNumber
        (others _ (fun same => isWritten (congrArg Fin.val same)) pNumber)

theorem Wrote.trans {count' : Nat} (first : Wrote sb fs fs' ip off src count)
    (second : Wrote sb fs' fs'' ip (off + count) (fun i => src (count + i)) count') :
    Wrote sb fs fs'' ip off src (count + count') := by
  refine ⟨first.toGrown.trans second.toGrown, first.beside.trans first.toGrown second.beside,
    ?_, ?_, ?_⟩
  · intro p low high
    rcases Nat.lt_or_ge p (off + count) with before | after
    · exact second.toGrown.hasBlock (first.there p low before)
    · exact second.there p after (by omega)
  · intro p low high
    rcases Nat.lt_or_ge p (off + count) with before | after
    · rw [second.rest p (first.there p low before) (by omega), first.written p low before]
    · rw [second.written p after (by omega)]
      exact congrArg src (by omega)
  · intro p there outside
    rw [second.rest p (first.toGrown.hasBlock there) (by omega), first.rest p there (by omega)]

theorem Extended.wrote_trans (extended : Extended sb fs fs' ip bns)
    (wrote : Wrote sb fs' fs'' ip off src count) :
    Wrote sb fs fs'' ip off src count := by
  have second : Wrote sb fs' fs'' ip (off + 0) (fun i => src (0 + i)) count := by
    simpa only [Nat.add_zero, Nat.zero_add] using wrote
  have both := (extended.wrote off src).trans second
  rwa [Nat.zero_add] at both

/-! ## The loop of writei -/

/-- The loop has come to byte `t` of `n` and has put `k` more bytes into a block that is not
counted: at the end of the buffer, where no block is free, or in the block in which the copy
has come to a page that is not there. -/
inductive Stopped (sb : Superblock) (fs fs' : FileSystem) (ip : InodeId) (off n available : Nat) :
    Nat → Nat → Prop where
  | finished (all : available = n) : Stopped sb fs fs' ip off n available n 0
  | full {t : Nat} (less : t < n) (reached : t ≤ available)
      (atStart : t = 0 ∨ (off + t) % BSIZE = 0)
      (vacant : ¬ HasBlock fs.blocks (fs.itable ip).toDinode (off + t))
      (full : sb.Full fs'.blocks) : Stopped sb fs fs' ip off n available t 0
  | fault {t k : Nat} (less : available < n) (parts : t + k = available)
      (inBlock : k = min available ((off + available) % BSIZE)) :
      Stopped sb fs fs' ip off n available t k

theorem Stopped.le {n : Nat} (stopped : Stopped sb fs fs' ip off n available t k) :
    t ≤ n := by
  cases stopped with
  | finished => exact Nat.le_refl _
  | full less => exact Nat.le_of_lt less
  | fault less parts => omega

/-- A round that does not end the loop ends at a block boundary. -/
theorem Stopped.prepend {fs₁ : FileSystem} {n rest m : Nat}
    (isPart : m = min n (BSIZE - off % BSIZE)) (grown : Grown sb fs fs₁ ip)
    (reached : available = m + rest) (stopped : Stopped sb fs₁ fs' ip (off + m) (n - m) rest t k) :
    Stopped sb fs fs' ip off n available (m + t) k := by
  have inBlock : off % BSIZE < BSIZE := Nat.mod_lt _ (by decide)
  have boundary : m < n → (off + m) % BSIZE = 0 := by
    intro more
    unfold BSIZE at *
    omega
  cases stopped with
  | finished all =>
      rw [show m + (n - m) = n by omega]
      exact .finished (by omega)
  | full less before atStart vacant full =>
      refine .full (by omega) (by omega) (.inr ?_) ?_ full
      · rcases atStart with isZero | atBoundary
        · rw [isZero, Nat.add_zero]
          exact boundary (by omega)
        · rw [← Nat.add_assoc]
          exact atBoundary
      · rw [← Nat.add_assoc]
        exact fun there => vacant (grown.hasBlock there)
  | fault less parts isRest =>
      refine .fault (by omega) (by omega) ?_
      have atBoundary := boundary (by omega)
      have samePlace : (off + available) % BSIZE = (off + m + rest) % BSIZE := by
        rw [reached, Nat.add_assoc]
      have place : (off + m + rest) % BSIZE = rest % BSIZE := by
        rw [Nat.add_mod, atBoundary, Nat.zero_add, Nat.mod_mod]
      have short := Nat.mod_le rest BSIZE
      omega

/-- What the loop of `writei` leaves after `t` bytes, with `n` bytes to write from `src`. -/
structure Copied (sb : Superblock) (user : Bool) (space : Space) (fs fs' : FileSystem)
    (ip : InodeId)
    (src off n t k : Nat) : Prop where
  editing : Editing sb fs' ip
  wrote : Wrote sb fs fs' ip off (fun i => space.bytes (src + i)) (t + k)
  logs : Logs sb fs fs' ip fun bn => off / BSIZE ≤ bn ∧ bn * BSIZE < off + n
  stopped : Stopped sb fs fs' ip off n (space.available user src n) t k

section Loop

variable {user : Bool} {space : Space} {src off n m : Nat} {inFile : off / BSIZE < MAXFILE}
  {fs₁ : FileSystem}

theorem Copied.nothing (editing : Editing sb fs ip) : Copied sb user space fs fs ip src off 0 0 0 :=
  ⟨editing, (Extended.refl fs ip fun _ => True).wrote .., .refl fs ip _,
    .finished (Space.available_of_covers fun _ i below => absurd below (Nat.not_lt_zero i))⟩

theorem Extended.logs_next (extended : Extended sb fs fs' ip (· = ⟨off / BSIZE, inFile⟩))
    (more : 0 < n) :
    Logs sb fs fs' ip fun bn => off / BSIZE ≤ bn ∧ bn * BSIZE < off + n := by
  refine extended.logs.mono ?_
  rintro bn rfl
  refine ⟨Nat.le_refl _, ?_⟩
  have floor := Nat.div_mul_le_self off BSIZE
  exact Nat.lt_of_le_of_lt floor (by omega)

theorem Copied.full (editing : Editing sb fs' ip)
    (extended : Extended sb fs fs' ip (· = ⟨off / BSIZE, inFile⟩)) (more : 0 < n)
    (vacant : fs.slots ip (contentSlot ⟨off / BSIZE, inFile⟩) = 0) (full : sb.Full fs'.blocks) :
    Copied sb user space fs fs' ip src off n 0 0 :=
  ⟨editing, extended.wrote .., extended.logs_next more,
    .full more (Nat.zero_le _) (.inl rfl) (fun ⟨_, number⟩ => number vacant) full⟩

theorem Copied.fault (isPart : m = min n (BSIZE - off % BSIZE))
    (extended : Extended sb fs fs₁ ip (· = ⟨off / BSIZE, inFile⟩)) (editing : Editing sb fs' ip)
    (wrote : Wrote sb fs₁ fs' ip off (fun i => space.bytes (src + i)) (space.available user src m))
    (sameLog : fs'.logged = fs₁.logged) (fails : space.available user src m < m) :
    Copied sb user space fs fs' ip src off n 0 (space.available user src n) := by
  have inBlock : off % BSIZE < BSIZE := Nat.mod_lt _ (by decide)
  have part := space.available_take user src (show m ≤ n by omega)
  have sameAvailable : space.available user src m = space.available user src n := by omega
  have noLog : Logs sb fs₁ fs' ip fun bn => off / BSIZE ≤ bn ∧ bn * BSIZE < off + n :=
    ⟨[], by rw [sameLog, List.append_nil], nofun⟩
  rw [sameAvailable] at wrote fails
  refine ⟨editing, ?_, (extended.logs_next (by omega)).trans extended.toGrown wrote.toGrown noLog,
    .fault (by omega) (Nat.zero_add _) ?_⟩
  · rw [Nat.zero_add]
    exact extended.wrote_trans wrote
  · have place : (off + space.available user src n) % BSIZE =
        off % BSIZE + space.available user src n := by
      unfold BSIZE at *
      omega
    omega

theorem Copied.round {fs₂ : FileSystem} {t k : Nat} {addr : BitVec 32}
    (isPart : m = min n (BSIZE - off % BSIZE)) (more : 0 < n)
    (extended : Extended sb fs fs₁ ip (· = ⟨off / BSIZE, inFile⟩))
    (isHeld : fs₁.slots ip (contentSlot ⟨off / BSIZE, inFile⟩) = addr) (number : addr ≠ 0)
    (wrote : Wrote sb fs₁ fs₂ ip off (fun i => space.bytes (src + i)) m)
    (isLog : fs₂.logged = fs₁.logged ++ [addr.toNat]) (succeeds : space.available user src m = m)
    (rest : Copied sb user space fs₂ fs' ip (src + m) (off + m) (n - m) t k) :
    Copied sb user space fs fs' ip src off n (m + t) k := by
  have inBlock : off % BSIZE < BSIZE := Nat.mod_lt _ (by decide)
  have reached : m ≤ space.available user src n := by
    have part := space.available_take user src (show m ≤ n by omega)
    omega
  have first := extended.wrote_trans wrote
  have stays : fs₂.slots ip (contentSlot ⟨off / BSIZE, inFile⟩) = addr :=
    (wrote.kept _ (by rw [← FileSystem.slots, isHeld]; exact number)).trans isHeld
  have logged : Logs sb fs₁ fs₂ ip fun bn => off / BSIZE ≤ bn ∧ bn * BSIZE < off + n := by
    refine ⟨[addr.toNat], isLog, fun c member => ?_⟩
    rw [List.mem_singleton.mp member, ← stays]
    refine .data ⟨Nat.le_refl _, ?_⟩ (by rwa [stays])
    exact Nat.lt_of_le_of_lt (Nat.div_mul_le_self off BSIZE) (by omega)
  have later : Logs sb fs₂ fs' ip fun bn => off / BSIZE ≤ bn ∧ bn * BSIZE < off + n := by
    refine rest.logs.mono fun bn listed => ⟨?_, by omega⟩
    exact Nat.le_trans (Nat.div_le_div_right (by omega)) listed.1
  refine ⟨rest.editing, ?_, ?_, rest.stopped.prepend isPart first.toGrown
    (Space.available_drop reached)⟩
  · rw [Nat.add_assoc]
    refine first.trans ?_
    have shifted : (fun i => space.bytes (src + m + i)) = fun i => space.bytes (src + (m + i)) := by
      funext i
      rw [Nat.add_assoc]
    rw [← shifted]
    exact rest.wrote
  · exact ((extended.logs_next more).trans extended.toGrown wrote.toGrown logged).trans
      first.toGrown rest.wrote.toGrown later

/-- **The loop of `writei`, wherever it stops.** -/
theorem writeLoop_spec (editing : Editing sb fs ip) (user : Bool) (space : Space) {rounds tot : Nat}
    (src : Nat) (enough : n - tot ≤ rounds) (started : tot ≤ n)
    (fits : off + (n - tot) ≤ MAXFILE * BSIZE) :
    ∃ t k fs', writeLoop sb ip user space n rounds fs src off tot =
        .ok (tot + t, off + t, fs') ∧ Copied sb user space fs fs' ip src off (n - tot) t k := by
  induction rounds generalizing fs src off tot with
  | zero =>
      obtain rfl : tot = n := by omega
      refine ⟨0, 0, fs, rfl, ?_⟩
      rw [Nat.sub_self]
      exact .nothing editing
  | succ rounds ih =>
      unfold writeLoop
      by_cases more : tot < n
      · rw [if_pos more]
        have inFile : off / BSIZE < MAXFILE := block_lt_of_offset (by omega)
        obtain ⟨addr, fs₁, result, editing₁, extended, stored, failed⟩ :=
          bmap_spec editing ⟨off / BSIZE, inFile⟩
        simp only [result]
        by_cases noBlock : addr = 0
        · rw [if_pos noBlock]
          obtain ⟨vacant, full⟩ := failed noBlock
          exact ⟨0, 0, fs₁, rfl, .full editing₁ extended (by omega) vacant full⟩
        · rw [if_neg noBlock]
          have isHeld : fs₁.slots ip (contentSlot ⟨off / BSIZE, inFile⟩) = addr := stored noBlock
          generalize isPart : min (n - tot) (BSIZE - off % BSIZE) = m
          rw [eitherCopyin_eq]
          have atMost := (space.available_spec user src m).1
          by_cases succeeds : space.available user src m = m
          · simp only [succeeds, decide_true, if_true]
            generalize isData : memmove (fs₁.blocks addr.toNat) (off % BSIZE)
              (fun i => space.bytes (src + i)) m = data
            have written : Editing sb (fs₁.logWrite addr.toNat data) ip ∧
                Wrote sb fs₁ (fs₁.logWrite addr.toNat data) ip off
                  (fun i => space.bytes (src + i)) m :=
              editing₁.wrote isHeld noBlock (by omega) (by rw [isData]; rfl) rfl rfl
            obtain ⟨editing₂, wrote⟩ := written
            have positive : 0 < m := by
              have inBlock : off % BSIZE < BSIZE := Nat.mod_lt _ (by decide)
              omega
            obtain ⟨t, k, fs', loop, copied⟩ := ih editing₂ (src + m)
              (show n - (tot + m) ≤ rounds by omega) (by omega)
              (show off + m + (n - (tot + m)) ≤ _ by omega)
            refine ⟨m + t, k, fs', ?_, ?_⟩
            · rw [loop, Nat.add_assoc, Nat.add_assoc]
            · rw [Nat.sub_add_eq] at copied
              exact .round isPart.symm (by omega) extended isHeld noBlock wrote rfl succeeds copied
          · simp only [succeeds, decide_false, Bool.false_eq_true, if_false]
            -- What was copied stays in the buffer.
            generalize isData : memmove (fs₁.blocks addr.toNat) (off % BSIZE)
              (fun i => space.bytes (src + i)) (space.available user src m) = data
            have written : Editing sb { fs₁ with
                  blocks := update fs₁.blocks addr.toNat data } ip ∧
                Wrote sb fs₁ { fs₁ with blocks := update fs₁.blocks addr.toNat data } ip off
                  (fun i => space.bytes (src + i)) (space.available user src m) :=
              editing₁.wrote isHeld noBlock (by omega) (by rw [isData]) rfl rfl
            obtain ⟨editing₂, wrote⟩ := written
            exact ⟨0, _, _, rfl, .fault isPart.symm extended editing₂ wrote rfl (by omega)⟩
      · obtain rfl : tot = n := by omega
        rw [if_neg more, Nat.sub_self]
        exact ⟨0, 0, fs, rfl, .nothing editing⟩

end Loop

/-! ## writei -/

def Refused (fs : FileSystem) (ip : InodeId) (off n : BitVec 32) : Prop :=
  off > (fs.itable ip).size ∨ 2 ^ 32 ≤ off.toNat + n.toNat ∨ MAXFILE * BSIZE < off.toNat + n.toNat

instance (fs : FileSystem) (ip : InodeId) (off n : BitVec 32) : Decidable (Refused fs ip off n) :=
  inferInstanceAs (Decidable (_ ∨ _ ∨ _))

/-- What `writei` leaves that has written `t` bytes and has put `k` more into a block. -/
structure Rewritten (sb : Superblock) (fs fs' : FileSystem) (ip : InodeId) (off : Nat) (src : Bytes)
    (t k : Nat) : Prop where
  ready : Ready sb fs'
  entries : ∀ jp, jp ≠ ip → fs'.itable jp = fs.itable jp
  inode : ∃ addrs size, fs'.itable ip = { fs.itable ip with addrs, size } ∧
    size.toNat = max (fs.itable ip).size.toNat (off + t)
  content : fs'.content ip = (overwrite (fs.content ip) off (firstBytes src (t + k))).take
    (max (fs.itable ip).size.toNat (off + t))
  others : ∀ inum, inum < sb.ninodes → inum ≠ (fs.itable ip).inum →
    sb.dinode fs'.blocks inum = sb.dinode fs.blocks inum ∧
      Fs.content fs'.blocks (sb.dinode fs'.blocks inum) =
        Fs.content fs.blocks (sb.dinode fs.blocks inum)

theorem writei_refused (sb : Superblock) {off : BitVec 32} (refused : Refused fs ip off n)
    (user : Bool) (space : Space) (src : Nat) :
    writei sb fs ip user space src off n = .ok (-1, fs) := by
  unfold writei
  by_cases outside : off > (fs.itable ip).size ∨ off + n < off
  · rw [if_pos outside]
  · rw [if_neg outside]
    rw [not_or] at outside
    have noWrap : off.toNat + n.toNat < 2 ^ 32 := by bv_omega
    have total : (off + n).toNat = off.toNat + n.toNat := by bv_omega
    rcases refused with beyond | wraps | tooLong
    · exact absurd beyond outside.1
    · omega
    · rw [if_pos (by omega)]

theorem setSize_max (fs : FileSystem) (ip : InodeId) (small : off < 2 ^ 32) :
    ∃ size, (if off > (fs.itable ip).size.toNat then fs.setSize ip (BitVec.ofNat 32 off) else fs) =
        fs.setInode ip { fs.itable ip with size } ∧
      size.toNat = max (fs.itable ip).size.toNat off := by
  split
  · refine ⟨BitVec.ofNat 32 off, rfl, ?_⟩
    rw [BitVec.toNat_ofNat, Nat.mod_eq_of_lt small]
    omega
  · refine ⟨(fs.itable ip).size, ?_, by omega⟩
    rw [FileSystem.setInode, update_eq_self]

theorem iupdate_held {inodes : Nat → Dinode} (sound : Sound sb fs.blocks inodes)
    (inArea : (fs.itable ip).inum < sb.ninodes) {inum : Nat} (inRange : inum < sb.ninodes)
    (slot : Slot) (number : held fs.blocks (inodes inum) slot ≠ 0) :
    (iupdate sb fs ip).blocks (held fs.blocks (inodes inum) slot).toNat =
      fs.blocks (held fs.blocks (inodes inum) slot).toNat := by
  have isData := (sound.of_held inRange rfl slot number).1.1
  have isMeta := sb.iblock_lt_nmeta inArea
  exact update_of_ne (by omega) ..

section Rewriting

variable {user : Bool} {space : Space} {src n t k off : Nat} {size : BitVec 32}

/-- All bytes of the file after the loop have a block. -/
theorem Copied.mapped (copied : Copied sb user space fs fs' ip src off n t k)
    (mapped : MappedTo fs.blocks (fs.itable ip).toDinode (fs.itable ip).size.toNat)
    (inside : off ≤ (fs.itable ip).size.toNat)
    (isSize : size.toNat = max (fs.itable ip).size.toNat (off + t)) :
    MappedTo fs'.blocks { (fs'.itable ip).toDinode with size } size.toNat := by
  refine mappedTo_of_hasBlock fun p below => ?_
  have there : HasBlock fs'.blocks (fs'.itable ip).toDinode p := by
    rcases Nat.lt_or_ge p (fs.itable ip).size.toNat with before | after
    · exact copied.wrote.toGrown.hasBlock (mapped.hasBlock before)
    · exact copied.wrote.there p (by omega) (by omega)
  unfold HasBlock at there ⊢
  simp only [held_size]
  exact there

theorem Copied.content (copied : Copied sb user space fs fs' ip src off n t k)
    (mapped : MappedTo fs.blocks (fs.itable ip).toDinode (fs.itable ip).size.toNat)
    (inside : off ≤ (fs.itable ip).size.toNat)
    (isSize : size.toNat = max (fs.itable ip).size.toNat (off + t)) :
    Fs.content fs'.blocks { (fs'.itable ip).toDinode with size } =
      (overwrite (fs.content ip) off (firstBytes (fun i => space.bytes (src + i)) (t + k))).take
        (max (fs.itable ip).size.toNat (off + t)) := by
  refine List.ext_getElem? fun p => ?_
  rw [← isSize]
  rcases Nat.lt_or_ge p size.toNat with below | above
  · rw [Fs.content, getElem?_firstBytes _ below, byteAt_size, List.getElem?_take_of_lt below,
      getElem?_overwrite (by rw [fs.content_length]; exact inside), firstBytes_length]
    split
    · rename_i isWritten
      rw [getElem?_firstBytes _ (by omega), copied.wrote.written p isWritten.1 isWritten.2]
    · rename_i isOld
      have wasInside : p < (fs.itable ip).size.toNat := by omega
      rw [copied.wrote.rest p (mapped.hasBlock wasInside) isOld, FileSystem.content, Fs.content,
        getElem?_firstBytes _ wasInside]
  · rw [List.getElem?_eq_none (by rw [Fs.content_length]; exact above),
      List.getElem?_eq_none (by rw [List.length_take]; omega)]

theorem Copied.rewritten (copied : Copied sb user space fs fs' ip src off n t k)
    (ready : Ready sb fs) (live : 0 < (fs.itable ip).ref) (valid : (fs.itable ip).valid = true)
    (inside : off ≤ (fs.itable ip).size.toNat)
    (isSize : size.toNat = max (fs.itable ip).size.toNat (off + t)) :
    Rewritten sb fs (iupdate sb (fs'.setInode ip { fs'.itable ip with size }) ip) ip off
      (fun i => space.bytes (src + i)) t k := by
  have mapped := ready.mapped live valid
  have mapped' := copied.mapped mapped inside isSize
  have editing : Editing sb (fs'.setInode ip { fs'.itable ip with size }) ip :=
    copied.editing.setInode { fs'.itable ip with size } rfl rfl copied.editing.valid
      copied.editing.allocated rfl mapped'
  have isEntry : (fs'.setInode ip { fs'.itable ip with size }).itable ip =
      { fs'.itable ip with size } := update_self ..
  obtain ⟨addrs, isGrown⟩ := copied.wrote.same
  generalize isNext : fs'.setInode ip { fs'.itable ip with size } = next at editing isEntry
  have sameBlocks : next.blocks = fs'.blocks := by rw [← isNext]; rfl
  have sameInum : (next.itable ip).inum = (fs.itable ip).inum := by
    rw [isEntry, copied.wrote.toGrown.inum_eq]
  have disk := (iupdate_spec editing.live editing.sound editing.coherent).1
  refine ⟨editing.iupdate, ?_, ⟨addrs, size, ?_, isSize⟩, ?_, ?_⟩
  · intro jp different
    rw [← copied.wrote.others jp different, ← isNext]
    exact update_of_ne different ..
  · show next.itable ip = _
    rw [isEntry, isGrown]
  · rw [← copied.content mapped inside isSize]
    have isMapped := editing.sound.mapped _ editing.inRange
    rw [next.view_self sb ip] at isMapped
    have kept : Fs.content (iupdate sb next ip).blocks (next.itable ip).toDinode =
        Fs.content next.blocks (next.itable ip).toDinode := by
      refine content_congr isMapped fun slot => ?_
      have same := iupdate_held editing.sound editing.inRange editing.inRange slot
      rwa [next.view_self sb ip] at same
    refine kept.trans ?_
    rw [sameBlocks, isEntry]
  · intro inum inRange other
    have sameDinode : sb.dinode (iupdate sb next ip).blocks inum = sb.dinode fs.blocks inum := by
      rw [disk, next.view_other sb (by rwa [sameInum]), sameBlocks,
        copied.wrote.disk inum inRange]
    refine ⟨sameDinode, ?_⟩
    rw [sameDinode]
    refine content_congr (ready.sound.mapped inum inRange) fun slot number => ?_
    have isKept := copied.wrote.beside inum inRange other
    have sameSlot : held next.blocks (sb.dinode fs.blocks inum) slot =
        held fs.blocks (sb.dinode fs.blocks inum) slot := by
      rw [sameBlocks]
      exact held_congr slot fun pointer => isKept (.addr indirect) pointer
    have same := iupdate_held editing.sound editing.inRange inRange slot
    rw [next.view_other sb (by rwa [sameInum]), sameBlocks, copied.wrote.disk inum inRange,
      ← sameBlocks, sameSlot] at same
    rw [same number, sameBlocks, isKept slot number]

end Rewriting

/-- **`writei` that is not refused** writes its bytes as far as its loop comes. -/
theorem writei_accepted (ready : Ready sb fs) (live : 0 < (fs.itable ip).ref)
    (valid : (fs.itable ip).valid = true) {off : BitVec 32} (accepted : ¬ Refused fs ip off n)
    (user : Bool) (space : Space) (src : Nat) :
    ∃ t k fs₁ fs', writei sb fs ip user space src off n = .ok ((t : Nat), fs') ∧
      Copied sb user space fs fs₁ ip src off.toNat n.toNat t k ∧
      Rewritten sb fs fs' ip off.toNat (fun i => space.bytes (src + i)) t k ∧
      fs'.logged = fs₁.logged ++ [sb.iblock (fs.itable ip).inum] ∧
      ∀ b, sb.used fs'.blocks b = sb.used fs₁.blocks b := by
  unfold Refused at accepted
  simp only [not_or, Nat.not_le, Nat.not_lt] at accepted
  obtain ⟨startsInside, noWrap, inFile⟩ := accepted
  have inside : off.toNat ≤ (fs.itable ip).size.toNat := by
    have notLess := BitVec.lt_def.not.mp startsInside
    omega
  have total : (off + n).toNat = off.toNat + n.toNat := by
    rw [BitVec.toNat_add, Nat.mod_eq_of_lt noWrap]
  have small : MAXFILE * BSIZE < 2 ^ 32 := by decide
  obtain ⟨t, k, fs₁, loop, copied⟩ := writeLoop_spec (ready.edit live valid) user space src
    (Nat.le_refl (n.toNat - 0)) (Nat.zero_le _) (show off.toNat + (n.toNat - 0) ≤ _ by omega)
  rw [Nat.sub_zero, Nat.zero_add] at loop
  have written : t ≤ n.toNat := copied.stopped.le
  have sameSize : (fs₁.itable ip).size = (fs.itable ip).size := by
    obtain ⟨addrs, isGrown⟩ := copied.wrote.same
    rw [isGrown]
  obtain ⟨size, resized, isSize⟩ := setSize_max fs₁ ip (show off.toNat + t < 2 ^ 32 by omega)
  rw [sameSize] at isSize
  have isInum : ((fs₁.setInode ip { fs₁.itable ip with size }).itable ip).inum =
      (fs.itable ip).inum := by
    rw [show (fs₁.setInode ip { fs₁.itable ip with size }).itable ip =
      { fs₁.itable ip with size } from update_self .., copied.wrote.toGrown.inum_eq]
  refine ⟨t, k, fs₁, _, ?_, copied, copied.rewritten ready live valid inside isSize, ?_, ?_⟩
  · unfold writei
    rw [if_neg (by rw [not_or]; exact ⟨startsInside, by bv_omega⟩), if_neg (by omega)]
    simp only [loop, resized]
  · show fs₁.logged ++ _ = _
    rw [isInum]
  · intro b
    refine sb.used_update_iblock ?_
    rw [isInum]
    exact (ready.edit live valid).inRange

theorem writei_spec (ready : Ready sb fs) (live : 0 < (fs.itable ip).ref)
    (valid : (fs.itable ip).valid = true) (user : Bool) (space : Space) (src : Nat)
    (off n : BitVec 32) :
    ∃ r fs', writei sb fs ip user space src off n = .ok (r, fs') ∧ Ready sb fs' := by
  by_cases refused : Refused fs ip off n
  · exact ⟨_, fs, writei_refused sb refused user space src, ready⟩
  · obtain ⟨t, k, fs₁, fs', wrote, _, rewritten, _⟩ :=
      writei_accepted ready live valid refused user space src
    exact ⟨t, fs', wrote, rewritten.ready⟩

end Xv6.Fs
