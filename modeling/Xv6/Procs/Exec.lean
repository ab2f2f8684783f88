import Xv6.Fs.Resolution
import Xv6.Procs.Arguments

/-!
Contract: `exec` of a file, from its path to the new image or back.

Owns: `exec` of `kernel/exec.c` with the inode it reads and the name it leaves, `safestrcpy`, and
that `exec` either switches the process to a new image or leaves the process, its memory, the
free pages and the references to inodes as they were.

Does not own: the log and the sleep-lock of the inode; the arguments that `sys_exec` fetches.
-/

namespace Xv6.Procs

open Xv6.Format
open Xv6.Kernel
open Xv6.Pools
open Xv6.Vm

/-! ## The name -/

/-- The loop of `safestrcpy`, from byte `pos` of `s` on. -/
def safestrcpyLoop : Nat → Bytes → Nat → List Byte → Bytes
  | 0, s, _, _ => s
  | 1, s, pos, _ => Function.update s pos 0
  | _ + 2, s, pos, [] => Function.update (Function.update s pos 0) (pos + 1) 0
  | n + 2, s, pos, byte :: t => safestrcpyLoop (n + 1) (Function.update s pos byte) (pos + 1) t

def safestrcpy (s : Bytes) (t : List Byte) (n : Nat) : Bytes := safestrcpyLoop n s 0 t

/-- The loop of `exec` over the path for the part after the last slash. -/
def lastElement : Fs.Path → Fs.Path → Fs.Path
  | last, [] => last
  | last, byte :: s => lastElement (if byte = Fs.slash then s else last) s

/-! ## exec -/

/-- What a process that calls `exec` has. -/
structure Image where
  user : UserMemory
  /-- `p->name` -/
  name : Bytes
  priority : Int
  cwd : Fs.InodeId

inductive ExecPanic where
  | vm (panic : Vm.Panic)
  | fs (panic : Fs.DirectoryPanic)
deriving DecidableEq

/-- `readi` of the locked inode into memory of the kernel. It does not panic and changes nothing
(`readi_reader`). -/
def reader (sb : Fs.Superblock) (fs : Fs.FileSystem) (ip : Fs.InodeId) : Reader := fun off n =>
  match Fs.readi sb fs ip false ⟨fun _ => false, fun _ => 0⟩ 0 (BitVec.ofNat 32 off)
      (BitVec.ofNat 32 n) with
  | .ok (r, space, _) => (space.bytes, r.toNat)
  | .error _ => (fun _ => 0, 0)

variable (layout : Layout) (sb : Fs.Superblock)

abbrev ExecResult := Except ExecPanic (Int × Image × Memory × Fs.FileSystem)

/-- `iunlockput` and what follows. -/
def putFile (fs : Fs.FileSystem) (ip : Fs.InodeId) (next : Fs.FileSystem → ExecResult) :
    ExecResult :=
  match Fs.iput sb fs ip with
  | .error panic => .error (.fs (.inode panic))
  | .ok fs => next fs

/-- `exec` from the stack on, without the inode. -/
def execImage (m : Memory) (p : Image) (pagetable : Addr) (sz : Nat) (entry : BitVec 64)
    (path : Fs.Path) (argv : List (List Byte)) (fs : Fs.FileSystem) : ExecResult :=
  match execStack layout m p.user pagetable sz entry argv with
  | .error panic => .error (.vm panic)
  | .ok (ret, user, m) =>
      if ret = -1 then
        .ok (-1, p, m, fs)
      else
        .ok (ret,
          { p with user, name := safestrcpy p.name (lastElement path path) 16, priority := 2 },
          m, fs)

/-- `exec` of the locked inode. -/
def execInode (m : Memory) (p : Image) (path : Fs.Path) (argv : List (List Byte))
    (fs : Fs.FileSystem) (ip : Fs.InodeId) : ExecResult :=
  let (bytes, r) := reader sb fs ip 0 ElfHdr.size
  let elf := ElfHdr.decode bytes
  if r ≠ ElfHdr.size then
    putFile sb fs ip fun fs => .ok (-1, p, m, fs)
  else if elf.magic ≠ ELF_MAGIC then
    putFile sb fs ip fun fs => .ok (-1, p, m, fs)
  else
    match procPagetable layout m p.user.trapframe with
    | .error panic => .error (.vm panic)
    | .ok (none, m) => putFile sb fs ip fun fs => .ok (-1, p, m, fs)
    | .ok (some pagetable, m) =>
        match loadLoop layout pagetable (reader sb fs ip) elf.phnum.toNat (elf.phoff.toNat % 2 ^ 32)
            m 0 with
        | .error panic => .error (.vm panic)
        | .ok (false, sz, m) =>
            match procFreepagetable layout m pagetable sz with
            | .error panic => .error (.vm panic)
            | .ok m => putFile sb fs ip fun fs => .ok (-1, p, m, fs)
        | .ok (true, sz, m) =>
            putFile sb fs ip (execImage layout m p pagetable sz (word64At bytes 24) path argv)

def execPath (fs : Fs.FileSystem) (m : Memory) (p : Image) (path : Fs.Path)
    (argv : List (List Byte)) : ExecResult :=
  match Fs.namei sb fs p.cwd path with
  | .error panic => .error (.fs panic)
  | .ok (none, fs) => .ok (-1, p, m, fs)
  | .ok (some ip, fs) =>
      match Fs.ilock sb fs ip with
      | .error panic => .error (.fs (.inode panic))
      | .ok fs => execInode layout sb m p path argv fs ip

/-! ## Atomicity -/

variable {layout sb} {m m' : Memory} {fs fs' : Fs.FileSystem} {p : Image} {ip : Fs.InodeId}
  {path : Fs.Path} {argv : List (List Byte)} {tree : Nat → List Fs.Dirent}

/-- The process after `exec` of its memory. -/
def Image.after (p : Image) (path : Fs.Path) (ret : Int) (user : UserMemory) : Image :=
  if ret = -1 then p
  else { p with user, name := safestrcpy p.name (lastElement path path) 16, priority := 2 }

theorem Image.after_user (p : Image) (path : Fs.Path) {ret : Int} (succeeds : ret ≠ -1)
    (user : UserMemory) : (p.after path ret user).user = user := by
  rw [Image.after, if_neg succeeds]

/-- If the inode can be given back, `exec` is what it does in memory. -/
theorem execInode_eq (given : Fs.iput sb fs ip = .ok fs') :
    execInode layout sb m p path argv fs ip =
      match exec layout m p.user (some (reader sb fs ip)) argv with
      | .error panic => .error (.vm panic)
      | .ok (ret, user, m') => .ok (ret, p.after path ret user, m', fs') := by
  have isPut : ∀ next, putFile sb fs ip next = next fs' := fun next => by rw [putFile, given]
  rw [execInode, exec]
  simp only [isPut]
  generalize reader sb fs ip 0 ElfHdr.size = answer
  obtain ⟨bytes, r⟩ := answer
  dsimp only
  split
  · rfl
  split
  · rfl
  cases procPagetable layout m p.user.trapframe with
  | error panic => rfl
  | ok created =>
      obtain ⟨_ | pagetable, m₁⟩ := created
      · rfl
      dsimp only
      cases loadLoop layout pagetable (reader sb fs ip) (ElfHdr.decode bytes).phnum.toNat
        ((ElfHdr.decode bytes).phoff.toNat % 2 ^ 32) m₁ 0 with
      | error panic => rfl
      | ok loaded =>
          obtain ⟨ok, sz, m₂⟩ := loaded
          cases ok with
          | false =>
              dsimp only [execBad]
              cases procFreepagetable layout m₂ pagetable sz with
              | error panic => rfl
              | ok m₃ => rfl
          | true =>
              dsimp only [execImage]
              cases execStack layout m₂ p.user pagetable sz (word64At bytes 24) argv with
              | error panic => rfl
              | ok result =>
                  obtain ⟨ret, user, m₃⟩ := result
                  dsimp only [Image.after]
                  split
                  · rename_i isFailed
                    rw [isFailed]
                  · rfl

/-- What `readi` delivers, without a panic and without a change to the file system, is the content
of the file. -/
theorem readi_reader (mapped : Fs.MappedTo fs.blocks (fs.itable ip).toDinode
      (fs.itable ip).size.toNat) (off n : Nat) :
    (∃ r space, Fs.readi sb fs ip false ⟨fun _ => false, fun _ => 0⟩ 0 (BitVec.ofNat 32 off)
        (BitVec.ofNat 32 n) = .ok (r, space, fs) ∧
      reader sb fs ip off n = (space.bytes, r.toNat)) ∧
    reader sb fs ip off n = fileReader (fs.content ip) off n := by
  have writable : Writable ⟨fun _ => false, fun _ => 0⟩ false 0
      (min (BitVec.ofNat 32 off + BitVec.ofNat 32 n).toNat (fs.itable ip).size.toNat -
        (BitVec.ofNat 32 off).toNat) := fun isUser => Bool.noConfusion isUser
  rw [reader, Fs.readi_content sb mapped writable]
  refine ⟨⟨_, _, rfl, rfl⟩, Prod.ext (funext fun i => ?_) ?_⟩
  · simp only [fileReader, fs.content_length, Space.bytes_store, memmove, Nat.zero_le, true_and,
      Nat.zero_add, Nat.sub_zero]
  · simp only [fileReader, fs.content_length, Int.toNat_natCast]

/-- The inode that a path leads to is locked and given back, with no trace but that it may have
been loaded. What is read from it is its content. -/
theorem lockFile_spec {name : Fs.Name} {start : Nat} {names : List Fs.Name}
    (resolved : Fs.Resolved sb fs tree false start names (some (ip, name)) fs') :
    ∃ fs₁ fs₂, Fs.ilock sb fs' ip = .ok fs₁ ∧ Fs.iput sb fs₁ ip = .ok fs₂ ∧
      Fs.Holding sb fs fs₂ (Fs.refOn none) ∧
      reader sb fs₁ ip =
        fileReader (Fs.content fs.blocks (sb.dinode fs.blocks (fs'.itable ip).inum)) := by
  have node := resolved.node ip name rfl
  have isRefs := resolved.holding.refs ip
  rw [Option.map_some, Fs.refOn, if_pos rfl] at isRefs
  obtain ⟨fs₁, locked, holding, isValid, isCopy, kept⟩ := resolved.holding.lock node (by omega)
  have isRefs₁ := holding.refs ip
  rw [Option.map_some, Fs.refOn, if_pos rfl] at isRefs₁
  have isContent : fs₁.content ip =
      Fs.content fs.blocks (sb.dinode fs.blocks (fs'.itable ip).inum) := by
    rw [Fs.FileSystem.content, isCopy, holding.blocks]
  rw [← kept ip] at node
  have noTarget : Fs.target sb fs (fun _ => []) true 0 [] = none := rfl
  obtain ⟨fs₂, given, released⟩ := holding.giveUp node noTarget
  refine ⟨fs₁, fs₂, locked, given, released.holding, funext fun off => funext fun n => ?_⟩
  rw [← isContent]
  exact (readi_reader (holding.ready.mapped (by omega) isValid) off n).2

def programAt (sb : Fs.Superblock) (fs : Fs.FileSystem) (tree : Nat → List Fs.Dirent)
    (cwd : Fs.InodeId) (path : Fs.Path) : Option Reader :=
  (Fs.resolve sb fs tree (Fs.startNumber fs cwd path) (Fs.names path)).map fun inum =>
    fileReader (Fs.content fs.blocks (sb.dinode fs.blocks inum))

/-- **`exec` of a path** is what it does in memory with the content of the file, and leaves no
reference to an inode. -/
theorem execPath_eq (quiescent : Fs.Quiescent sb fs tree) (inUse : 0 < (fs.itable p.cwd).ref)
    (layout : Layout) (m : Memory) (path : Fs.Path) (argv : List (List Byte)) :
    (execPath layout sb fs m p path argv = .error (.fs (.inode .noInodes)) ∧ ¬ Fs.Room fs) ∨
    ∃ fs', Fs.Holding sb fs fs' (Fs.refOn none) ∧ execPath layout sb fs m p path argv =
      match exec layout m p.user (programAt sb fs tree p.cwd path) argv with
      | .error panic => .error (.vm panic)
      | .ok (ret, user, m') => .ok (ret, p.after path ret user, m', fs') := by
  unfold execPath Fs.namei
  rcases Fs.namex_spec quiescent inUse path false with
    ⟨failed, noRoom⟩ | ⟨found, fs₁, ended, resolved⟩
  · rw [failed]
    exact .inl ⟨rfl, noRoom⟩
  rw [ended]
  refine .inr ?_
  have isTarget : found.map (fun result => (fs₁.itable result.1).inum) =
      Fs.resolve sb fs tree (Fs.startNumber fs p.cwd path) (Fs.names path) := resolved.number
  rw [programAt, ← isTarget]
  cases found with
  | none => exact ⟨fs₁, resolved.holding, rfl⟩
  | some file =>
      obtain ⟨ip, name⟩ := file
      obtain ⟨fs₂, fs₃, locked, given, released, isReader⟩ := lockFile_spec resolved
      refine ⟨fs₃, released, ?_⟩
      dsimp only [Except.map, Option.map_some]
      rw [locked]
      dsimp only
      rw [execInode_eq given, isReader]

/-- **`exec` is atomic.** For every file and every list of arguments it returns, without a panic
unless the inode table is full. No reference to an inode is left. Either it returns -1, the process,
its pages and the free pages are as before; or it returns `argc`, the process has a new address
space from pages that were free, and those of the old one are free. -/
theorem exec_atomic {tree : Nat → List Fs.Dirent} (quiescent : Fs.Quiescent sb fs tree)
    (inUse : 0 < (fs.itable p.cwd).ref) (space : HasSpace layout m p.user)
    (owned : Owned layout m (userPages m p.user)) (path : Fs.Path) (argv : List (List Byte)) :
    (execPath layout sb fs m p path argv = .error (.fs (.inode .noInodes)) ∧ ¬ Fs.Room fs) ∨
    ∃ ret p' m' fs', execPath layout sb fs m p path argv = .ok (ret, p', m', fs') ∧
      Fs.Holding sb fs fs' (Fs.refOn none) ∧
      ((ret = -1 ∧ p' = p ∧ (m'.free : Multiset Addr) = m.free ∧
          ∀ a ∈ userPages m p.user, m'.store a = m.store a) ∨
        (ret = argv.length ∧ p'.user.trapframe = p.user.trapframe ∧ p'.user.pagetable ∈ m.free ∧
          HasSpace layout m' p'.user ∧ spacePages m p.user.pagetable (npages p.user.sz) ≤ m'.free ∧
          (m'.free : Multiset Addr) + userPages m' p'.user = m.free + userPages m p.user)) := by
  have nothing : ∀ m', Transfer m m' 0 0 → (m'.free : Multiset Addr) = m.free ∧
      ∀ a ∈ userPages m p.user, m'.store a = m.store a := by
    intro m' moved
    have conserved := moved.conserved
    rw [add_zero, add_zero] at conserved
    have withNothing : Owned layout m (0 + userPages m p.user) := by rwa [zero_add]
    exact ⟨conserved, fun a member => withNothing.untouched moved member⟩
  rcases execPath_eq quiescent inUse layout m path argv with full | ⟨fs', released, isRun⟩
  · exact .inl full
  obtain ⟨ret, user, m', ran, outcome⟩ :=
    exec_spec space owned (programAt sb fs tree p.cwd path) argv
  rw [ran] at isRun
  refine .inr ⟨ret, p.after path ret user, m', fs', isRun, released, ?_⟩
  cases outcome with
  | failed moved => exact .inl ⟨rfl, if_pos rfl, nothing m' moved⟩
  | switched moved space' isNew freed =>
      rw [Image.after_user p path (by omega)]
      exact .inr ⟨rfl, rfl, isNew, space', freed, moved.conserved⟩

/-- The first process, with three pages, executes "/sh" with one argument. -/
theorem exec_atomic_program : ∃ fs m p p' m' fs',
    Fs.Quiescent Fs.mkfsSuperblock fs (fun _ => Fs.rootEntries) ∧ 0 < (fs.itable p.cwd).ref ∧
    HasSpace megabyteKernel m p.user ∧ Owned megabyteKernel m (userPages m p.user) ∧
    p.user.sz = 8193 ∧
    execPath megabyteKernel Fs.mkfsSuperblock fs m p [Fs.slash, 0x73, 0x68] [[0x73, 0x68]] =
      .ok (1, p', m', fs') ∧
    Fs.Holding Fs.mkfsSuperblock fs fs' (Fs.refOn none) ∧ p'.user.pagetable ∈ m.free ∧
    HasSpace megabyteKernel m' p'.user ∧
    spacePages m p.user.pagetable (npages p.user.sz) ≤ m'.free := by
  obtain ⟨fs, quiescent, live, isType, isContent, room⟩ :=
    Fs.exists_installed smallProgram (by decide +kernel)
  obtain ⟨m, user, space, owned, checked⟩ := exists_process [(0, .sbrk 4097)] (fun m p =>
    p.sz = 8193 ∧ loadable megabyteKernel m p (some (fileReader smallProgram)) = true)
    (by decide +kernel)
  rw [decide_eq_true_eq] at checked
  obtain ⟨isSize, loads⟩ := checked
  obtain ⟨p, rfl, isCwd⟩ : ∃ p : Image, p.user = user ∧ p.cwd = Fs.slot 0 :=
    ⟨⟨user, fun _ => 0, 2, Fs.slot 0⟩, rfl, rfl⟩
  rw [← isCwd] at live
  have isProgram : programAt Fs.mkfsSuperblock fs (fun _ => Fs.rootEntries) p.cwd
      [Fs.slash, 0x73, 0x68] = some (fileReader smallProgram) := by
    have isComponents : Fs.components [Fs.slash, 0x73, 0x68] = [[0x73, 0x68]] := by decide
    have isFile : Fs.lookup Fs.rootEntries (Fs.Name.ofList [0x73, 0x68]) = some 2 := by
      decide +kernel
    have isStart : Fs.startNumber fs p.cwd [Fs.slash, 0x73, 0x68] = ROOTINO := rfl
    have isNames : Fs.names [Fs.slash, 0x73, 0x68] = [Fs.Name.ofList [0x73, 0x68]] := by
      rw [Fs.names, isComponents]
      rfl
    rw [programAt, isStart, isNames, Fs.resolve_cons, Fs.follow, if_pos isType, isFile, ← isContent]
    rfl
  have fits : Fits [[0x73, 0x68]] := by decide
  obtain ⟨user', m₁, ran, -⟩ := exec_succeeds space owned (by decide) loads fits
  rcases execPath_eq (p := p) quiescent live megabyteKernel m [Fs.slash, 0x73, 0x68]
    [[0x73, 0x68]] with ⟨-, noRoom⟩ | ⟨fs₁, -, isRun⟩
  · exact absurd room noRoom
  rw [isProgram, ran] at isRun
  rcases exec_atomic (p := p) quiescent live space owned [Fs.slash, 0x73, 0x68] [[0x73, 0x68]] with
    ⟨-, noRoom⟩ | ⟨ret, p', m', fs', ran', released, outcome⟩
  · exact absurd room noRoom
  rw [isRun] at ran'
  cases ran'
  rcases outcome with ⟨fails, -⟩ | ⟨-, -, isNew, space', freed, -⟩
  · cases fails
  · exact ⟨fs, m, p, _, _, _, quiescent, live, space, owned, isSize, isRun, released, isNew, space',
      freed⟩

end Xv6.Procs
