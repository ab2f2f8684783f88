import Xv6.Mkfs.Image

/-!
Contract: `main` of `mkfs`.

Owns: the contents of the inodes for given files of the host, that the loop over the files
makes them, and the image at `exit(0)` (`Finished`); and, without a bound on the number of
files, how many inodes `main` takes.

Does not own: what the kernel makes of the image (`Mkfs.Agreement`).
-/

namespace Xv6.Mkfs

open Xv6.Kernel
open Xv6.Format
open Xv6.Fs (Superblock Dinode Slot Block Stored Dirent Name mkfsSuperblock held contentSlot readsb
  direntBytes SuperblockFields IPB dot dotdot slash)
open Function
open Xv6.Programs

/-! ## Contents -/

def fileBytes (host : Host) (i : Nat) : List Byte := ((host.reads i).getD []).flatMap (·.bytes)

/-- The entry of `argv[i]` in the root directory; its inode is the `i`-th. -/
def fileEntry (i : Nat) (arg : Arg) : Dirent := Dirent.ofName (Name.ofList (shortname arg)) i

def entriesFrom : Nat → List Arg → List Dirent
  | _, [] => []
  | i, arg :: args => fileEntry i arg :: entriesFrom (i + 1) args

def dots : List Dirent := [Dirent.ofName dot ROOTINO, Dirent.ofName dotdot ROOTINO]

/-- The contents of `count` inodes: the root directory, and `argv[2]` and so on. -/
def contentsOf (host : Host) (entries : List Dirent) (count : Nat) : Nat → List Byte := fun inum =>
  if inum = ROOTINO then direntBytes entries
  else if 2 ≤ inum ∧ inum ≤ count then fileBytes host inum
  else []

section Contents

variable {host : Host} {entries : List Dirent} {count : Nat}

theorem contentsOf_root : contentsOf host entries count ROOTINO = direntBytes entries := if_pos rfl

theorem contentsOf_file {inum : Nat} (isFile : 2 ≤ inum) (inUse : inum ≤ count) :
    contentsOf host entries count inum = fileBytes host inum := by
  rw [contentsOf, if_neg (by unfold ROOTINO; omega), if_pos ⟨isFile, inUse⟩]

theorem direntBytes_append (entries more : List Dirent) :
    direntBytes (entries ++ more) = direntBytes entries ++ direntBytes more :=
  List.flatMap_append

theorem contentsOf_entry (de : Dirent) :
    update (contentsOf host entries count) ROOTINO
      (contentsOf host entries count ROOTINO ++ direntBytes [de]) =
        contentsOf host (entries ++ [de]) count := by
  funext inum
  by_cases isRoot : inum = ROOTINO
  · rw [isRoot, update_self, contentsOf_root, contentsOf_root, direntBytes_append]
  · rw [update_of_ne isRoot, contentsOf, contentsOf, if_neg isRoot, if_neg isRoot]

theorem contentsOf_next (inUse : 1 ≤ count) :
    update (contentsOf host entries count) (count + 1)
      (contentsOf host entries count (count + 1) ++ fileBytes host (count + 1)) =
        contentsOf host entries (count + 1) := by
  have isEmpty : contentsOf host entries count (count + 1) = [] := by
    rw [contentsOf, if_neg (by unfold ROOTINO; omega), if_neg (by omega)]
  funext inum
  by_cases isNext : inum = count + 1
  · rw [isNext, update_self, isEmpty, contentsOf_file (by omega) (Nat.le_refl _)]
    rfl
  · have same : (2 ≤ inum ∧ inum ≤ count) ↔ (2 ≤ inum ∧ inum ≤ count + 1) := by omega
    rw [update_of_ne isNext]
    simp only [contentsOf, same]

theorem entriesFrom_length (i : Nat) (args : List Arg) :
    (entriesFrom i args).length = args.length := by
  induction args generalizing i with
  | nil => rfl
  | cons arg args ih => exact congrArg (· + 1) (ih (i + 1))

theorem getElem?_entriesFrom (i k : Nat) (args : List Arg) :
    (entriesFrom i args)[k]? = (args[k]?).map (fileEntry (i + k)) := by
  induction args generalizing i k with
  | nil => rfl
  | cons arg args ih =>
      cases k with
      | zero => rfl
      | succ k =>
          rw [entriesFrom, List.getElem?_cons_succ, List.getElem?_cons_succ, ih,
            Nat.add_assoc, Nat.add_comm 1 k]

end Contents

/-! ## The loop over the files -/

section Files

variable {s : State} {contents : Nat → List Byte} {count inum : Nat} {host : Host}
  {entries : List Dirent}

theorem appendDirent_spec (made : Made s contents count) (inUse : inum ≤ count) (isInode : inum ≠ 0)
    (de : Dirent) :
    Ends (Fits (update contents inum (contents inum ++ direntBytes [de])))
      (fun s' => Made s' (update contents inum (contents inum ++ direntBytes [de])) count)
      (appendDirent s inum de) := by
  have bytes : direntBytes [de] = firstBytes (Dirent.codec.encode de) Dirent.codec.width :=
    List.append_nil _
  rw [bytes]
  exact iappend_spec made inUse isInode _ _

theorem contents_le_update (contents : Nat → List Byte) (inum : Nat) (more : List Byte)
    (other : Nat) :
    (contents other).length ≤ (update contents inum (contents inum ++ more) other).length := by
  by_cases same : other = inum
  · rw [same, update_self, List.length_append]
    exact Nat.le_add_right ..
  · rw [update_of_ne same]

theorem appendChunks_spec (made : Made s contents count) (inUse : inum ≤ count) (isInode : inum ≠ 0)
    (chunks : List Chunk) :
    Ends (Fits (update contents inum (contents inum ++ chunks.flatMap (·.bytes))))
      (fun s' => Made s' (update contents inum
        (contents inum ++ chunks.flatMap (·.bytes))) count)
      (appendChunks inum s chunks) := by
  induction chunks generalizing s contents with
  | nil =>
      have same : contents inum ++ ([] : List Chunk).flatMap (·.bytes) = contents inum :=
        List.append_nil _
      rw [same, update_eq_self]
      exact made
  | cons chunk chunks ih =>
      have one := iappend_spec made inUse isInode (fun i => chunk.bytes.getD i 0) chunk.bytes.length
      rw [firstBytes_getD] at one
      have whole : update contents inum
          (contents inum ++ (chunk :: chunks).flatMap (·.bytes)) =
            update (update contents inum (contents inum ++ chunk.bytes)) inum
              (update contents inum (contents inum ++ chunk.bytes) inum ++
                chunks.flatMap (·.bytes)) := by
        rw [update_self, update_idem, List.append_assoc, List.flatMap_cons]
      rw [whole]
      unfold appendChunks
      have fewer : Fits _ → Fits _ := fun fits => fits.mono fun other _ =>
        contents_le_update (update contents inum (contents inum ++ chunk.bytes)) inum
          (chunks.flatMap (·.bytes)) other
      exact (one.mono fewer fun _ post => post).bind fun s₁ made₁ => ih made₁

/-- What a file of the host must be for `mkfs` to take it. -/
def Takes (host : Host) (i : Nat) (arg : Arg) : Prop :=
  slash ∉ stripUser arg.bytes ∧ (host.reads i).isSome

theorem addFile_spec (made : Made s (contentsOf host entries count) count)
    (room : count + 1 < mkfsSuperblock.ninodes) (hasRoot : 1 ≤ count) (arg : Arg) :
    Ends (Takes host (count + 1) arg ∧
        Fits (contentsOf host (entries ++ [fileEntry (count + 1) arg]) (count + 1)))
      (fun s' => Made s' (contentsOf host (entries ++ [fileEntry (count + 1) arg]) (count + 1))
        (count + 1))
      (addFile host ROOTINO s (count + 1) arg) := by
  unfold addFile
  by_cases hasSlash : slash ∈ stripUser arg.bytes
  · rw [if_pos hasSlash]
    exact fun enough => enough.1.1 hasSlash
  · rw [if_neg hasSlash]
    cases opened : host.reads (count + 1) with
    | none =>
        intro enough
        have isSome := enough.1.2
        rw [opened] at isSome
        cases isSome
    | some chunks =>
        have isFile : T_FILE = kind (count + 1) (count + 1) := by
          rw [kind, if_neg (by omega), if_neg (by unfold ROOTINO; omega)]
        have bytes : chunks.flatMap (·.bytes) = fileBytes host (count + 1) := by
          rw [fileBytes, opened]
          rfl
        obtain ⟨s₁, allocated, made₁⟩ := ialloc_spec made room isFile
        have entered := appendDirent_spec made₁ (by unfold ROOTINO; omega) (by decide : ROOTINO ≠ 0)
          (fileEntry (count + 1) arg)
        rw [contentsOf_entry] at entered
        have fewer := contents_le_update (contentsOf host (entries ++ [fileEntry (count + 1) arg])
          count) (count + 1) (fileBytes host (count + 1))
        rw [contentsOf_next hasRoot] at fewer
        refine .step allocated ((entered.mono (fun enough => enough.2.mono fun inum _ => fewer inum)
          fun _ post => post).bind fun s₂ made₂ => ?_)
        have filled := appendChunks_spec made₂ (Nat.le_refl _) (Nat.succ_ne_zero count) chunks
        rw [bytes, contentsOf_next hasRoot] at filled
        exact filled.mono (fun enough => enough.2) fun _ post => post

theorem addFiles_spec (args : List Arg) (made : Made s (contentsOf host entries count) count)
    (room : count + args.length < mkfsSuperblock.ninodes) (hasRoot : 1 ≤ count) :
    Ends ((∀ k arg, args[k]? = some arg → Takes host (count + 1 + k) arg) ∧
        Fits (contentsOf host (entries ++ entriesFrom (count + 1) args) (count + args.length)))
      (fun s' => Made s' (contentsOf host (entries ++ entriesFrom (count + 1) args)
        (count + args.length)) (count + args.length))
      (addFiles host ROOTINO s (count + 1) args) := by
  induction args generalizing s count entries with
  | nil =>
      rw [entriesFrom, List.append_nil]
      exact made
  | cons arg args ih =>
      have whole : entries ++ entriesFrom (count + 1) (arg :: args) =
          (entries ++ [fileEntry (count + 1) arg]) ++ entriesFrom (count + 1 + 1) args := by
        rw [entriesFrom, List.append_assoc]
        rfl
      have total : count + (arg :: args).length = count + 1 + args.length := by
        rw [List.length_cons]
        omega
      rw [total] at room
      rw [whole, total]
      unfold addFiles
      refine ((addFile_spec made (by omega) hasRoot arg).mono ?_ fun _ post => post).bind ?_
      · rintro ⟨takes, fits⟩
        refine ⟨takes 0 arg rfl, fits.mono fun inum _ => ?_⟩
        unfold contentsOf
        by_cases isRoot : inum = ROOTINO
        · rw [if_pos isRoot, if_pos isRoot, direntBytes_append _ (entriesFrom _ _),
            List.length_append]
          exact Nat.le_add_right ..
        · rw [if_neg isRoot, if_neg isRoot]
          by_cases isFile : 2 ≤ inum ∧ inum ≤ count + 1
          · rw [if_pos isFile, if_pos (by omega)]
          · rw [if_neg isFile]
            exact Nat.zero_le _
      · intro s₁ made₁
        refine (ih made₁ room (by omega)).mono ?_ fun _ post => post
        rintro ⟨takes, fits⟩
        refine ⟨fun k other isOther => ?_, fits⟩
        have takesOther := takes (k + 1) other isOther
        rwa [show count + 1 + (k + 1) = count + 1 + 1 + k by omega] at takesOther

end Files

/-! ## The end of `main` -/

/-- The image at `exit(0)`. -/
structure Finished (s : State) (contents : Nat → List Byte) (count : Nat) : Prop extends
    Laid s (mkfsSuperblock.dinode s.blocks) contents where
  freeinode : s.freeinode = count + 1
  inTable : count < mkfsSuperblock.ninodes
  sizes : ∀ inum, inum < mkfsSuperblock.ninodes → inum ≠ ROOTINO →
    (mkfsSuperblock.dinode s.blocks inum).size.toNat = (contents inum).length
  rootSize : (mkfsSuperblock.dinode s.blocks ROOTINO).size.toNat =
    ((contents ROOTINO).length / BSIZE + 1) * BSIZE
  types : ∀ inum, inum < mkfsSuperblock.ninodes →
    (mkfsSuperblock.dinode s.blocks inum).type = kind count inum
  unused : ∀ inum, inum = 0 ∨ count < inum → contents inum = []
  bitmap : ∀ b, b < FSSIZE → mkfsSuperblock.used s.blocks b = decide (b < s.freeblock)

section End

variable {s : State} {contents : Nat → List Byte} {count : Nat}

theorem bitAt_foldl_setBit (n i : Nat) :
    bitAt ((List.range n).foldl setBit fun _ => 0) i = decide (i < n) := by
  induction n with
  | zero => simp [bitAt]
  | succ n ih =>
      rw [List.range_succ, List.foldl_append, List.foldl_cons, List.foldl_nil, bitAt_setBit,
        ih, ← Bool.decide_or]
      exact decide_eq_decide.mpr (by omega)

theorem balloc_spec (laid : Laid s (mkfsSuperblock.dinode s.blocks) contents) :
    ∃ s', balloc s s.freeblock = .ok s' ∧ Laid s' (mkfsSuperblock.dinode s'.blocks) contents ∧
      (∀ inum, inum < mkfsSuperblock.ninodes →
        mkfsSuperblock.dinode s'.blocks inum = mkfsSuperblock.dinode s.blocks inum) ∧
      (∀ b, b < FSSIZE → mkfsSuperblock.used s'.blocks b = decide (b < s.freeblock)) ∧
      s'.freeblock = s.freeblock ∧ s'.freeinode = s.freeinode := by
  have fits : s.freeblock < BSIZE * 8 := by
    have small := laid.small
    unfold FSSIZE at small
    unfold BSIZE
    omega
  have isMeta : mkfsSuperblock.bmapstart < mkfsSuperblock.nmeta := mkfsSuperblock.bmapstart_lt_nmeta
  have table : ∀ inum, inum < mkfsSuperblock.ninodes → mkfsSuperblock.dinode
      (update s.blocks mkfsSuperblock.bmapstart
        ((List.range s.freeblock).foldl setBit fun _ => 0)) inum =
          mkfsSuperblock.dinode s.blocks inum :=
    fun inum inRange => Superblock.dinode_update_above inRange (Nat.le_refl _)
  have addrs := fun inum inRange => congrArg Dinode.addrs (table inum inRange)
  refine ⟨{ s with
    blocks := update s.blocks mkfsSuperblock.bmapstart
      ((List.range s.freeblock).foldl setBit fun _ => 0) }, ?_,
    ⟨laid.sectors, laid.small, laid.volume.write_meta isMeta _ addrs,
      laid.kept.write_meta laid.volume isMeta _ addrs, fun inum inRange slot => ?_, ?_⟩, table, ?_,
    rfl, rfl⟩
  · rw [balloc, if_pos fits]
    exact congrArg Except.ok (wsect_eq laid.sectors (by decide) _)
  · rw [← laid.shaped inum inRange slot]
    exact Iff.of_eq (congrArg (· ≠ 0)
      (laid.volume.held_meta isMeta _ inRange (addrs inum inRange) slot))
  · rw [← laid.superblock]
    exact readsb_update (by decide)
  · intro b inVolume
    have inFirst : b / BPB = 0 := Nat.div_eq_of_lt (Nat.lt_trans inVolume (by decide))
    have place : b % BPB = b := Nat.mod_eq_of_lt (Nat.lt_trans inVolume (by decide))
    have isBlock : mkfsSuperblock.bblock b = mkfsSuperblock.bmapstart := by
      rw [Superblock.bblock, inFirst, Nat.zero_add]
    rw [Superblock.used, isBlock, place]
    dsimp only
    rw [update_self, bitAt_foldl_setBit]

/-- The size of the root directory is set to a multiple of the block size. -/
theorem fixRoot_spec (made : Made s contents count) :
    ∃ s', fixRoot s ROOTINO = .ok s' ∧ Laid s' (mkfsSuperblock.dinode s'.blocks) contents ∧
      (∀ inum, inum < mkfsSuperblock.ninodes → mkfsSuperblock.dinode s'.blocks inum =
        if inum = ROOTINO then
          { mkfsSuperblock.dinode s.blocks ROOTINO with
            size := BitVec.ofNat 32 (((contents ROOTINO).length / BSIZE + 1) * BSIZE) }
        else mkfsSuperblock.dinode s.blocks inum) ∧
      s'.freeblock = s.freeblock ∧ s'.freeinode = s.freeinode := by
  have inRange : ROOTINO < mkfsSuperblock.ninodes := by decide
  have written : fixRoot s ROOTINO = winode s ROOTINO { mkfsSuperblock.dinode s.blocks ROOTINO with
      size := BitVec.ofNat 32 (((contents ROOTINO).length / BSIZE + 1) * BSIZE) } := by
    rw [fixRoot, rinode_eq made.sectors inRange, ok_bind, made.sizes ROOTINO inRange]
  rw [written]
  exact winode_spec made.toLaid inRange (fun _ _ _ => rfl) rfl

theorem finish_spec (made : Made s contents count) :
    ∃ s', (fixRoot s ROOTINO >>= fun s => balloc s s.freeblock) = .ok s' ∧
      Finished s' contents count := by
  obtain ⟨s₁, fixed, laid, table, freeblock, freeinode⟩ := fixRoot_spec made
  obtain ⟨s₂, marked, laid₂, table₂, bitmap, freeblock₂, freeinode₂⟩ := balloc_spec laid
  have inRange : ROOTINO < mkfsSuperblock.ninodes := by decide
  have short := made.inFile ROOTINO inRange
  refine ⟨s₂, by rw [fixed]; exact marked, { laid₂ with
    freeinode := freeinode₂.trans (freeinode.trans made.freeinode)
    inTable := made.inTable
    sizes := fun inum inTable notRoot => ?_
    rootSize := ?_
    types := fun inum inTable => ?_
    unused := made.unused
    bitmap := fun b inVolume => ?_ }⟩
  · rw [table₂ inum inTable, table inum inTable, if_neg notRoot]
    exact made.sizes inum inTable
  · rw [table₂ ROOTINO inRange, table ROOTINO inRange, if_pos rfl]
    show (BitVec.ofNat 32 _).toNat = _
    unfold MAXFILE NDIRECT NINDIRECT BSIZE at *
    rw [BitVec.toNat_ofNat, Nat.mod_eq_of_lt (by omega)]
  · rw [table₂ inum inTable, table inum inTable, ← made.types inum inTable]
    split
    · rename_i isRoot
      rw [isRoot]
    · rfl
  · rw [bitmap b inVolume, freeblock₂]

def rootEntries (argv : List Arg) : List Dirent := dots ++ entriesFrom 2 (argv.drop 2)

def TakesAll (argv : List Arg) (host : Host) : Prop :=
  ∀ k arg, (argv.drop 2)[k]? = some arg → Takes host (2 + k) arg

/-- **`main` makes the image**, unless a file cannot be taken or the files do not fit. -/
theorem main_spec {argv : List Arg} {host : Host} (usage : 2 ≤ argv.length)
    (few : argv.length ≤ NINODES) :
    Ends (host.creates = true ∧ TakesAll argv host ∧
        Fits (contentsOf host (rootEntries argv) (argv.length - 1)))
      (fun s => Finished s (contentsOf host (rootEntries argv) (argv.length - 1)) (argv.length - 1))
      (main argv host) := by
  have total : 1 + (argv.drop 2).length = argv.length - 1 := by
    rw [List.length_drop]
    omega
  have room : 1 + (argv.drop 2).length < mkfsSuperblock.ninodes := by
    have table : mkfsSuperblock.ninodes = NINODES := rfl
    omega
  -- What is in the root directory so far is a part of what will be there.
  have fewer : ∀ entries rest count, entries ++ rest = rootEntries argv → count ≤ argv.length - 1 →
      Fits (contentsOf host (rootEntries argv) (argv.length - 1)) →
        Fits (contentsOf host entries count) := by
    intro entries rest count whole inUse fits
    refine fits.mono fun inum _ => ?_
    unfold contentsOf
    rw [← whole, direntBytes_append]
    by_cases isRoot : inum = ROOTINO
    · rw [if_pos isRoot, if_pos isRoot, List.length_append]
      exact Nat.le_add_right ..
    · rw [if_neg isRoot, if_neg isRoot]
      by_cases isFile : 2 ≤ inum ∧ inum ≤ count
      · rw [if_pos isFile, if_pos (by omega)]
      · rw [if_neg isFile]
        exact Nat.zero_le _
  have empty : (fun _ => []) = contentsOf host [] 0 := by
    funext inum
    unfold contentsOf
    split
    · rfl
    · rw [if_neg (by omega)]
  have start := format_made
  rw [empty] at start
  unfold main
  generalize format = s₀ at start ⊢
  rw [if_neg (by omega)]
  cases created : host.creates with
  | false => exact fun enough => Bool.noConfusion enough.1
  | true =>
      obtain ⟨s₁, allocated, made₁⟩ := ialloc_spec start
        (by decide : 0 + 1 < mkfsSuperblock.ninodes)
        (rfl : T_DIR = kind (0 + 1) (0 + 1))
      have sameContents : contentsOf host [] 0 = contentsOf host [] 1 := by
        funext inum
        have same : (2 ≤ inum ∧ inum ≤ 0) ↔ (2 ≤ inum ∧ inum ≤ 1) := by omega
        simp only [contentsOf, same]
      rw [sameContents] at made₁
      have isRoot : ialloc s₀ T_DIR = .ok (ROOTINO, s₁) := allocated
      refine .step isRoot ?_
      dsimp only
      rw [if_pos rfl]
      have first := appendDirent_spec made₁ (by decide : ROOTINO ≤ 1) (by decide)
        (Dirent.ofName dot ROOTINO)
      rw [contentsOf_entry] at first
      refine (first.mono (fun enough => fewer _ (Dirent.ofName dotdot ROOTINO :: entriesFrom 2 _) _
        rfl (by omega) enough.2.2) fun _ post => post).bind fun s₂ made₂ => ?_
      have second := appendDirent_spec made₂ (by decide : ROOTINO ≤ 1) (by decide)
        (Dirent.ofName dotdot ROOTINO)
      rw [contentsOf_entry] at second
      refine (second.mono (fun enough => fewer _ (entriesFrom 2 _) _ rfl (by omega) enough.2.2)
        fun _ post => post).bind fun s₃ made₃ => ?_
      have files := addFiles_spec (argv.drop 2) made₃ room (Nat.le_refl 1)
      rw [total] at files
      refine (files.mono (fun enough => ⟨enough.2.1, enough.2.2⟩) fun _ post => post).bind
        fun s₄ made₄ => ?_
      obtain ⟨s₅, finished, isFinished⟩ := finish_spec made₄
      rw [finished]
      exact isFinished

end End

/-! ## Any number of files -/

/-- The image has the size and the inodes taken that it had. -/
def Steady (s s' : State) : Prop := s'.sectors = s.sectors ∧ s'.freeinode = s.freeinode

section Counting

variable {s s' s'' : State} {k : Nat}

theorem Steady.trans (earlier : Steady s s') (later : Steady s' s'') : Steady s s'' :=
  ⟨later.1.trans earlier.1, later.2.trans earlier.2⟩

theorem rsect_steady (s : State) (sec : Nat) :
    Ends False (fun _ => position sec < s.sectors) (rsect s sec) := by
  unfold rsect
  split
  · rename_i inside
    exact inside
  · exact id

/-- A sector that could be read is not the end of the file. -/
theorem wsect_steady {sec : Nat} (inside : position sec < s.sectors) (buf : Block) :
    Steady s (wsect s sec buf) :=
  ⟨Nat.max_eq_left inside, rfl⟩

theorem winode_steady (s : State) (inum : Nat) (ip : Dinode) :
    Ends False (fun s' => Steady s s' ∧ position (iblock inum) < s.sectors) (winode s inum ip) :=
  (rsect_steady s _).bind fun _ inside => ⟨wsect_steady inside _, inside⟩

theorem fillSlot_steady (s : State) (din : Dinode) (slot : Fin (NDIRECT + 1)) :
    Steady s (fillSlot s din slot).2 := by
  unfold fillSlot
  split <;> exact ⟨rfl, rfl⟩

theorem fillEntry_steady (s : State) (pointer j : Nat) :
    Ends False (fun found => Steady s found.2) (fillEntry s pointer j) := by
  refine (rsect_steady s pointer).bind fun numbers inside => ?_
  dsimp only
  split
  · exact ⟨Nat.max_eq_left inside, rfl⟩
  · exact ⟨rfl, rfl⟩

theorem findBlock_steady (s : State) (din : Dinode) (fbn : Nat) :
    Ends False (fun found => Steady s found.2.2) (findBlock s din fbn) := by
  unfold findBlock
  split
  · exact fillSlot_steady s din _
  · exact (fillEntry_steady _ _ _).bind fun found steady => (fillSlot_steady s din _).trans steady

theorem appendLoop_steady (rounds : Nat) (s : State) (din : Dinode) (off : Nat)
    (p : Bytes) (n : Nat) :
    Ends False (fun result => Steady s result.1) (appendLoop rounds s din off p n) := by
  induction rounds generalizing s din off p n with
  | zero => exact ⟨rfl, rfl⟩
  | succ rounds ih =>
      unfold appendLoop
      split
      · dsimp only
        split
        · refine (findBlock_steady s din _).bind fun found steady => ?_
          refine (rsect_steady found.2.2 found.1.toNat).bind fun buf inside => ?_
          exact (ih _ _ _ _ _).mono id fun result later =>
            (steady.trans (wsect_steady inside _)).trans later
        · exact id
      · exact ⟨rfl, rfl⟩

theorem iappend_steady (s : State) (inum : Nat) (p : Bytes) (n : Nat) :
    Ends False (Steady s) (iappend s inum p n) := by
  refine ((rsect_steady s _).bind (fun _ _ => trivial) : Ends False (fun _ => True)
    (rinode s inum)).bind fun din _ => ?_
  refine (appendLoop_steady n s din _ p n).bind fun result steady => ?_
  exact (winode_steady result.1 inum _).mono id fun s' later => steady.trans later.1

theorem appendChunks_steady (inum : Nat) (s : State) (chunks : List Chunk) :
    Ends False (Steady s) (appendChunks inum s chunks) := by
  induction chunks generalizing s with
  | nil => exact ⟨rfl, rfl⟩
  | cons chunk chunks ih =>
      refine (iappend_steady s inum _ _).bind fun s₁ steady => ?_
      exact (ih s₁).mono id fun s' later => steady.trans later

/-- The first inode number whose block is not in the image. -/
def inodeLimit : Nat := (FSSIZE - (2 + LOGSIZE)) * IPB

/-- `k - 1` inodes have been taken. -/
def Counts (s : State) (k : Nat) : Prop :=
  s.sectors = FSSIZE ∧ s.freeinode = k ∧ k ≤ inodeLimit

theorem Counts.steady (counts : Counts s k) (steady : Steady s s') : Counts s' k :=
  ⟨steady.1.trans counts.1, steady.2.trans counts.2.1, counts.2.2⟩

theorem ialloc_counts (counts : Counts s k) (type : BitVec 16) :
    Ends False (fun result => result.1 = k ∧ Counts result.2 (k + 1)) (ialloc s type) := by
  obtain ⟨sectors, rfl, bound⟩ := counts
  unfold inodeLimit FSSIZE LOGSIZE MAXOPBLOCKS at bound
  have ipb : IPB = 16 := rfl
  rw [ipb] at bound
  have next : (s.freeinode + 1) % 2 ^ 32 = s.freeinode + 1 := Nat.mod_eq_of_lt (by omega)
  refine (winode_steady _ _ _).bind fun s' written => ?_
  obtain ⟨steady, inside⟩ := written
  change position (s.freeinode / IPB + 32) < s.sectors at inside
  rw [sectors, ipb] at inside
  unfold position BSIZE FSSIZE at inside
  refine ⟨rfl, steady.1.trans sectors, steady.2.trans next, ?_⟩
  unfold inodeLimit FSSIZE LOGSIZE MAXOPBLOCKS
  rw [ipb]
  omega

theorem addFiles_counts (host : Host) (rootino : Nat) (counts : Counts s k) (i : Nat)
    (args : List Arg) :
    Ends False (fun s' => Counts s' (k + args.length)) (addFiles host rootino s i args) := by
  induction args generalizing s k i with
  | nil => exact counts
  | cons arg args ih =>
      have added : Ends False (fun s' => Counts s' (k + 1)) (addFile host rootino s i arg) := by
        unfold addFile
        split
        · exact id
        · cases host.reads i with
          | none => exact id
          | some chunks =>
              refine (ialloc_counts counts T_FILE).bind fun result allocated => ?_
              refine (iappend_steady result.2 rootino _ _).bind fun s₁ steady => ?_
              exact (appendChunks_steady result.1 s₁ chunks).mono id fun s' later =>
                allocated.2.steady (steady.trans later)
      refine added.bind fun s₁ counts₁ => ?_
      refine (ih counts₁ (i + 1)).mono id fun s' counts' => ?_
      rwa [show k + 1 + args.length = k + (arg :: args).length by
        rw [List.length_cons]; omega] at counts'

/-- `main` takes an inode for the root directory and for each file. -/
theorem main_counts (argv : List Arg) (host : Host) :
    Ends False (fun s => 2 ≤ argv.length ∧ s.freeinode = argv.length) (main argv host) := by
  have start : Counts format 1 := by
    rw [format_eq]
    exact ⟨rfl, rfl, by decide⟩
  unfold main
  generalize format = s₀ at start ⊢
  by_cases usage : argv.length < 2
  · rw [if_pos usage]
    exact id
  · rw [if_neg usage]
    split
    · refine (ialloc_counts start T_DIR).bind fun result allocated => ?_
      dsimp only
      split
      · refine (iappend_steady result.2 result.1 _ _).bind fun s₁ steady₁ => ?_
        refine (iappend_steady s₁ result.1 _ _).bind fun s₂ steady₂ => ?_
        have counts := allocated.2.steady (steady₁.trans steady₂)
        refine (addFiles_counts host result.1 counts 2 (argv.drop 2)).bind fun s₃ counts₃ => ?_
        have fixed : Ends False (Steady s₃) (fixRoot s₃ result.1) :=
          ((rsect_steady s₃ _).bind (fun _ _ => trivial) : Ends False (fun _ => True)
            (rinode s₃ result.1)).bind fun din _ =>
              (winode_steady s₃ result.1 _).mono id fun _ written => written.1
        refine fixed.bind fun s₄ steady₄ => ?_
        obtain ⟨_, freeinode, _⟩ := counts₃.steady steady₄
        unfold balloc
        split
        · refine ⟨by omega, freeinode.trans ?_⟩
          rw [List.length_drop]
          omega
        · exact id
      · exact id
    · exact id

end Counting

end Xv6.Mkfs
