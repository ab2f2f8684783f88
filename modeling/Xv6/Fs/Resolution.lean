import Xv6.Fs.Directory

/-!
Contract: path names are resolved element by element.

Owns: `namex`, `namei` and `nameiparent` of `kernel/fs.c`, the components of a path, that
`skipelem` yields them, the directory graph of a file system at rest, resolution in the graph,
and that `namei` and `nameiparent` compute it and take one reference.

Does not own: changes of the graph while a path is resolved.
-/

namespace Xv6.Fs

open Xv6.Kernel
open Xv6.Format
open Xv6.Tables
open Function

/-! ## namex -/

/-- The loop of `namex`, with the last element of the path; each round takes at least one
byte of the path. -/
def namexLoop (sb : Superblock) (parent : Bool) : Nat → FileSystem → InodeId → Path → Name →
    Except DirectoryPanic (Option (InodeId × Name) × FileSystem)
  | 0, fs, ip, _, name => .ok (some (ip, name), fs)
  | rounds + 1, fs, ip, path, name =>
      match skipelem path with
      | none =>
          if parent then
            match iput sb fs ip with
            | .error panic => .error (.inode panic)
            | .ok fs => .ok (none, fs)
          else
            .ok (some (ip, name), fs)
      | some (name, path) =>
          match ilock sb fs ip with
          | .error panic => .error (.inode panic)
          | .ok fs =>
              if (fs.itable ip).type ≠ T_DIR then
                match iput sb fs ip with
                | .error panic => .error (.inode panic)
                | .ok fs => .ok (none, fs)
              else if parent ∧ path = [] then
                -- Stop one level early.
                .ok (some (ip, name), fs)
              else
                match dirlookup sb fs ip name with
                | .error panic => .error panic
                | .ok (found, fs) =>
                    match iput sb fs ip with
                    | .error panic => .error (.inode panic)
                    | .ok fs =>
                        match found with
                        | none => .ok (none, fs)
                        | some (next, _) => namexLoop sb parent rounds fs next path name

def pathStart (fs : FileSystem) (cwd : InodeId) (path : Path) :
    Except Panic (InodeId × FileSystem) :=
  if path.head? = some slash then iget fs ROOTINO else .ok (cwd, idup fs cwd)

def namex (sb : Superblock) (fs : FileSystem) (cwd : InodeId) (path : Path) (parent : Bool) :
    Except DirectoryPanic (Option (InodeId × Name) × FileSystem) :=
  match pathStart fs cwd path with
  | .error panic => .error (.inode panic)
  | .ok (ip, fs) => namexLoop sb parent (path.length + 1) fs ip path (Name.ofList [])

def namei (sb : Superblock) (fs : FileSystem) (cwd : InodeId) (path : Path) :
    Except DirectoryPanic (Option InodeId × FileSystem) :=
  (namex sb fs cwd path false).map fun (found, fs) => (found.map Prod.fst, fs)

def nameiparent (sb : Superblock) (fs : FileSystem) (cwd : InodeId) (path : Path) :
    Except DirectoryPanic (Option (InodeId × Name) × FileSystem) :=
  namex sb fs cwd path true

/-! ## Components of a path -/

/-- The non-empty parts of the path between slashes. -/
def components (path : Path) : List (List Byte) := (path.splitOn slash).filter (· ≠ [])

section Components

variable {path rest : Path} {name : Name}

theorem components_nil : components [] = [] := by decide

theorem components_slash (path : Path) : components (slash :: path) = components path := by
  rw [components, List.splitOn_eq_splitOnP, List.splitOnP_cons_eq_if_modifyHead, if_pos (by decide),
    List.filter_cons_of_neg (by decide), ← List.splitOn_eq_splitOnP, components]

theorem components_dropWhile (path : Path) :
    components (path.dropWhile (· = slash)) = components path := by
  induction path with
  | nil => rfl
  | cons byte path ih =>
      rw [List.dropWhile_cons]
      split
      · rename_i isSlash
        rw [of_decide_eq_true isSlash, components_slash, ih]
      · rfl

theorem components_word {word : List Byte} (noSlash : ∀ byte ∈ word, byte ≠ slash)
    (nonEmpty : word ≠ []) : components word = [word] ∧
      ∀ path, components (word ++ slash :: path) = word :: components path := by
  have noSplit : ∀ byte ∈ word, (byte == slash) = false := by
    intro byte member
    simpa using noSlash byte member
  constructor
  · rw [components, List.splitOn_eq_splitOnP, List.splitOnP_eq_singleton noSplit,
      List.filter_cons_of_pos (by simpa using nonEmpty)]
    rfl
  · intro path
    rw [components, List.splitOn_eq_splitOnP, List.splitOnP_append_cons _ _ (by decide),
      List.splitOnP_eq_singleton noSplit, List.singleton_append,
      List.filter_cons_of_pos (by simpa using nonEmpty), ← List.splitOn_eq_splitOnP, components]

theorem skipelem_none (ended : skipelem path = none) : components path = [] := by
  unfold skipelem at ended
  split at ended
  · rename_i allSlashes
    rw [← components_dropWhile, allSlashes, components_nil]
  · cases ended

/-- One element of the path, cut to `DIRSIZ` bytes. -/
theorem skipelem_some (isNext : skipelem path = some (name, rest)) : ∃ word,
    components path = word :: components rest ∧ name = Name.ofList (word.take DIRSIZ) ∧
      rest.length < path.length ∧ rest.dropWhile (· = slash) = rest := by
  unfold skipelem at isNext
  split at isNext
  · cases isNext
  · rename_i notEmpty
    generalize isTrimmed : path.dropWhile (· = slash) = trimmed at isNext notEmpty
    have shorter : trimmed.length ≤ path.length := by
      rw [← isTrimmed]
      exact (List.dropWhile_suffix _).length_le
    -- The path starts with a byte of the element.
    have startsWord : ∃ byte later, trimmed = byte :: later ∧ byte ≠ slash := by
      cases trimmed with
      | nil => exact absurd rfl notEmpty
      | cons byte later =>
          refine ⟨byte, later, rfl, fun isSlash => ?_⟩
          have first := List.head?_dropWhile_not (fun byte => decide (byte = slash)) path
          rw [isTrimmed] at first
          simp [isSlash] at first
    obtain ⟨byte, later, isCons, notSlash⟩ := startsWord
    cases isNext
    have split := List.takeWhile_append_dropWhile (p := (· ≠ slash)) (l := trimmed)
    have noSlash : ∀ other ∈ trimmed.takeWhile (· ≠ slash), other ≠ slash := by
      intro other member
      have isOther := List.mem_takeWhile_imp member
      simpa using isOther
    have nonEmpty : trimmed.takeWhile (· ≠ slash) ≠ [] := by
      rw [isCons, List.takeWhile_cons_of_pos (by simpa using notSlash)]
      exact List.cons_ne_nil _ _
    obtain ⟨alone, before⟩ := components_word noSlash nonEmpty
    refine ⟨trimmed.takeWhile (· ≠ slash), ?_, rfl, ?_, List.dropWhile_idempotent _ _⟩
    · rw [components_dropWhile, ← components_dropWhile path, isTrimmed]
      cases isTail : trimmed.dropWhile (· ≠ slash) with
      | nil =>
          rw [isTail, List.append_nil] at split
          rw [components_nil, ← alone, split]
      | cons byte later =>
          have isSlash : byte = slash := by
            have first := List.head?_dropWhile_not (fun byte => decide (byte ≠ slash)) trimmed
            rw [isTail] at first
            simpa using first
          rw [isTail, isSlash] at split
          rw [isSlash, components_slash, ← before later, split]
    · have parts := congrArg List.length split
      rw [List.length_append] at parts
      have positive := List.length_pos_iff.mpr nonEmpty
      have trims := (List.dropWhile_suffix (l := trimmed.dropWhile (· ≠ slash))
        (· = slash)).length_le
      omega

def names (path : Path) : List Name :=
  (components path).map fun word => Name.ofList (word.take DIRSIZ)

theorem names_of_none (ended : skipelem path = none) : names path = [] := by
  rw [names, skipelem_none ended]
  rfl

theorem names_of_some (isNext : skipelem path = some (name, rest)) :
    names path = name :: names rest ∧ rest.length < path.length ∧
      (rest = [] ↔ names rest = []) := by
  obtain ⟨word, isWord, isName, shorter, trimmed⟩ := skipelem_some isNext
  refine ⟨by rw [names, isWord, isName]; rfl, shorter, fun isEmpty => ?_, fun noNames => ?_⟩
  · rw [isEmpty, names, components_nil]
    rfl
  · -- A path that does not start with a slash and is not empty has an element.
    cases more : skipelem rest with
    | none =>
        unfold skipelem at more
        rw [trimmed] at more
        split at more
        · rfl
        · cases more
    | some next =>
        obtain ⟨word', isWord', _⟩ := skipelem_some more
        rw [names, isWord'] at noNames
        cases noNames

/-- **Repeated `skipelem` yields the components.** -/
theorem skipelems_eq {n : Nat} (enough : path.length ≤ n) : skipelems n path = names path := by
  induction n generalizing path with
  | zero =>
      obtain rfl := List.length_eq_zero_iff.mp (Nat.le_zero.mp enough)
      rw [names, components_nil]
      rfl
  | succ n ih =>
      unfold skipelems
      cases isNext : skipelem path with
      | none => exact (names_of_none isNext).symm
      | some next =>
          obtain ⟨name, rest⟩ := next
          obtain ⟨isNames, shorter, _⟩ := names_of_some isNext
          rw [isNames, ← ih (show rest.length ≤ n by omega)]

end Components

/-! ## The directory graph -/

def lookup (entries : List Dirent) (name : Name) : Option Nat :=
  (entries.find? fun de => de.Matches name).map fun de => de.inum.toNat

/-- The inode is allocated, and without links it is in use. -/
structure Node (sb : Superblock) (fs : FileSystem) (inum : Nat) : Prop where
  inRange : inum < sb.ninodes
  allocated : (sb.dinode fs.blocks inum).type ≠ 0
  kept : (sb.dinode fs.blocks inum).nlink ≠ 0 ∨
    ∃ jp, 0 < (fs.itable jp).ref ∧ (fs.itable jp).inum = inum

/-- A file system at rest, with the entries of its directories: each entry in use leads to an
inode. -/
structure Quiescent (sb : Superblock) (fs : FileSystem) (tree : Nat → List Dirent) : Prop where
  ready : Ready sb fs
  root : Node sb fs ROOTINO
  used : ∀ jp, 0 < (fs.itable jp).ref → (sb.dinode fs.blocks (fs.itable jp).inum).type ≠ 0
  content : ∀ inum, inum < sb.ninodes → (sb.dinode fs.blocks inum).type = T_DIR →
    content fs.blocks (sb.dinode fs.blocks inum) = direntBytes (tree inum)
  entries : ∀ inum, inum < sb.ninodes → (sb.dinode fs.blocks inum).type = T_DIR →
    ∀ de ∈ tree inum, de.inum ≠ 0 → Node sb fs de.inum.toNat

def follow (sb : Superblock) (fs : FileSystem) (tree : Nat → List Dirent) (inum : Nat)
    (name : Name) :
    Option Nat :=
  if (sb.dinode fs.blocks inum).type = T_DIR then lookup (tree inum) name else none

def resolve (sb : Superblock) (fs : FileSystem) (tree : Nat → List Dirent) (inum : Nat)
    (names : List Name) : Option Nat :=
  names.foldlM (follow sb fs tree) inum

/-- What `namex` is for: the inode of the path, or the directory with its last element. -/
def target (sb : Superblock) (fs : FileSystem) (tree : Nat → List Dirent) (parent : Bool)
    (inum : Nat)
    (names : List Name) : Option Nat :=
  if parent then
    if names = [] then none
    else (resolve sb fs tree inum names.dropLast).filter fun d =>
      (sb.dinode fs.blocks d).type = T_DIR
  else
    resolve sb fs tree inum names

section Target

variable {sb : Superblock} {fs : FileSystem} {tree : Nat → List Dirent} {parent : Bool}
  {inum next : Nat} {name : Name} {names : List Name}

theorem resolve_cons : resolve sb fs tree inum (name :: names) =
    (follow sb fs tree inum name).bind fun next => resolve sb fs tree next names :=
  List.foldlM_cons ..

theorem target_step (found : follow sb fs tree inum name = some next)
    (notLast : ¬ (parent = true ∧ names = [])) :
    target sb fs tree parent inum (name :: names) = target sb fs tree parent next names := by
  unfold target
  cases parent with
  | false => rw [if_neg Bool.false_ne_true, if_neg Bool.false_ne_true, resolve_cons, found]; rfl
  | true =>
      have more : names ≠ [] := fun isEmpty => notLast ⟨rfl, isEmpty⟩
      rw [if_pos rfl, if_pos rfl, if_neg (List.cons_ne_nil _ _), if_neg more,
        List.dropLast_cons_of_ne_nil more, resolve_cons, found]
      rfl

theorem target_missing (missing : follow sb fs tree inum name = none)
    (notLast : ¬ (parent = true ∧ names = [])) :
    target sb fs tree parent inum (name :: names) = none := by
  unfold target
  cases parent with
  | false => rw [if_neg Bool.false_ne_true, resolve_cons, missing]; rfl
  | true =>
      have more : names ≠ [] := fun isEmpty => notLast ⟨rfl, isEmpty⟩
      rw [if_pos rfl, if_neg (List.cons_ne_nil _ _), List.dropLast_cons_of_ne_nil more,
        resolve_cons, missing]
      rfl

theorem target_last : target sb fs tree true inum [name] =
    if (sb.dinode fs.blocks inum).type = T_DIR then some inum else none := by
  unfold target resolve
  rw [if_pos rfl, if_neg (List.cons_ne_nil _ _)]
  show (some inum).filter _ = _
  rw [Option.filter_some]
  simp only [decide_eq_true_eq]

theorem target_notDir (notDir : (sb.dinode fs.blocks inum).type ≠ T_DIR) :
    target sb fs tree parent inum (name :: names) = none := by
  by_cases last : parent = true ∧ names = []
  · obtain ⟨rfl, rfl⟩ := last
    rw [target_last, if_neg notDir]
  · exact target_missing (if_neg notDir) last

/-- The path leads where its last element leads from the parent. -/
theorem resolve_eq_parent (nonEmpty : names ≠ []) : resolve sb fs tree inum names =
    (target sb fs tree true inum names).bind fun d => lookup (tree d) (names.getLast nonEmpty) := by
  induction names generalizing inum with
  | nil => exact absurd rfl nonEmpty
  | cons name names ih =>
      rw [resolve_cons]
      by_cases last : names = []
      · subst last
        rw [target_last, follow]
        split
        · exact Option.bind_fun_some _
        · rfl
      · rw [List.getLast_cons last]
        cases found : follow sb fs tree inum name with
        | none =>
            rw [target_missing found fun isLast => last isLast.2]
            rfl
        | some next =>
            rw [target_step found fun isLast => last isLast.2]
            exact ih last

end Target

/-! ## References during a resolution -/

/-- One reference, on one entry of the inode table or on none. -/
def refOn : Option InodeId → InodeId → Nat
  | none, _ => 0
  | some ip, jp => if jp = ip then 1 else 0

/-- Besides references, which have changed by `taken`, the calls so far have at most loaded
inodes. -/
structure Holding (sb : Superblock) (fs fs' : FileSystem) (taken : InodeId → Nat) : Prop where
  ready : Ready sb fs'
  blocks : fs'.blocks = fs.blocks
  refs : ∀ jp, (fs'.itable jp).ref = (fs.itable jp).ref + taken jp
  numbers : ∀ jp, 0 < (fs.itable jp).ref → (fs'.itable jp).inum = (fs.itable jp).inum

section Holding

variable {sb : Superblock} {fs fs₁ fs₂ : FileSystem} {ip : InodeId} {taken taken' : InodeId → Nat}
  {inum : Nat}

theorem Holding.refl (ready : Ready sb fs) : Holding sb fs fs (refOn none) :=
  ⟨ready, rfl, fun _ => rfl, fun _ _ => rfl⟩

theorem inum_setInode {inode : Inode} (same : inode.inum = (fs.itable ip).inum) (jp : InodeId) :
    ((fs.setInode ip inode).itable jp).inum = (fs.itable jp).inum := by
  by_cases isSelf : jp = ip
  · rw [isSelf, ← same]
    exact congrArg Inode.inum (update_self ..)
  · exact congrArg Inode.inum (update_of_ne isSelf ..)

theorem Holding.assign (holding : Holding sb fs fs₁ taken) {inode : Inode}
    (ready : Ready sb (fs₁.setInode ip inode)) (isRef : inode.ref = (fs.itable ip).ref + taken' ip)
    (others : ∀ jp, jp ≠ ip → taken' jp = taken jp)
    (isNumber : 0 < (fs.itable ip).ref → inode.inum = (fs₁.itable ip).inum) :
    Holding sb fs (fs₁.setInode ip inode) taken' := by
  have isSelf : (fs₁.setInode ip inode).itable ip = inode := update_self ..
  have isOther : ∀ jp, jp ≠ ip → (fs₁.setInode ip inode).itable jp = fs₁.itable jp :=
    fun jp other =>
    update_of_ne other ..
  refine ⟨ready, holding.blocks, fun jp => ?_, fun jp live => ?_⟩
  · by_cases same : jp = ip
    · rw [same, isSelf, isRef]
    · rw [isOther jp same, holding.refs, others jp same]
  · by_cases same : jp = ip
    · subst same
      rw [isSelf, isNumber live, holding.numbers jp live]
    · rw [isOther jp same, holding.numbers jp live]

/-- `iget` takes one reference, and an entry in use keeps its inode. -/
theorem Holding.get (holding : Holding sb fs fs₁ taken) (inRange : inum < sb.ninodes)
    (got : iget fs₁ inum = .ok (ip, fs₂)) :
    Holding sb fs fs₂ (fun jp => taken jp + refOn (some ip) jp) ∧ (fs₂.itable ip).inum = inum ∧
      ∀ jp, 0 < (fs₁.itable jp).ref → (fs₂.itable jp).inum = (fs₁.itable jp).inum := by
  have ready : Ready sb fs₂ := by
    rcases iget_spec holding.ready inRange with ⟨_, _, result, isReady⟩ | failed
    · rw [got] at result
      cases result
      exact isReady
    · rw [got] at failed
      cases failed
  have isRefs := holding.refs ip
  have others : ∀ jp, jp ≠ ip → taken jp + refOn (some ip) jp = taken jp := fun jp other => by
    rw [refOn, if_neg other, Nat.add_zero]
  have taking : taken ip + refOn (some ip) ip = taken ip + 1 := by rw [refOn, if_pos rfl]
  rcases iget_cases got with ⟨live, isInode, rfl⟩ | ⟨isFree, _, rfl⟩
  · have isSelf : (fs₁.setInode ip
        { fs₁.itable ip with ref := (fs₁.itable ip).ref + 1 }).itable ip =
        { fs₁.itable ip with ref := (fs₁.itable ip).ref + 1 } := update_self ..
    refine ⟨holding.assign ready ?_ others fun _ => rfl, by rw [isSelf]; exact isInode,
      fun jp _ => ?_⟩
    · rw [taking]
      show (fs₁.itable ip).ref + 1 = _
      omega
    · exact inum_setInode (by rfl) jp
  · have isSelf : (fs₁.setInode ip
        { fs₁.itable ip with inum, ref := 1, valid := false }).itable ip =
        { fs₁.itable ip with inum, ref := 1, valid := false } := update_self ..
    refine ⟨holding.assign ready ?_ others fun live => by omega, by rw [isSelf], fun jp live => ?_⟩
    · rw [taking]
      show 1 = _
      omega
    · have other : jp ≠ ip := by
        rintro rfl
        omega
      exact congrArg Inode.inum (update_of_ne other ..)

/-- `iput` gives one reference back, and does not free the inode. -/
theorem Holding.put (holding : Holding sb fs fs₁ taken) (node : Node sb fs (fs₁.itable ip).inum)
    (mine : 0 < taken ip) :
    ∃ fs₂, iput sb fs₁ ip = .ok fs₂ ∧
      Holding sb fs fs₂ (fun jp => taken jp - refOn (some ip) jp) ∧
      ∀ jp, (fs₂.itable jp).inum = (fs₁.itable jp).inum := by
  have isRefs := holding.refs ip
  have live : 0 < (fs₁.itable ip).ref := by omega
  have notLast : ¬ ((fs₁.itable ip).ref = 1 ∧ (fs₁.itable ip).valid = true ∧
      (fs₁.itable ip).nlink = 0) := by
    rintro ⟨isOne, isValid, unlinked⟩
    rcases node.kept with linked | ⟨jp, inUse, isInode⟩
    · obtain ⟨copy, _⟩ := holding.ready.coherent.copies ip id live isValid
      rw [holding.blocks] at copy
      exact linked (by rw [← copy]; exact unlinked)
    · -- The entry in use is this one, which then has two references.
      have isRefs' := holding.refs jp
      have same := holding.ready.coherent.single jp ip (by omega) live
        ((holding.numbers jp inUse).trans isInode)
      subst same
      omega
  refine ⟨_, iput_eq sb notLast, holding.assign (holding.ready.setRef live _) ?_
    (fun jp other => ?_) fun _ => rfl, inum_setInode rfl⟩
  · rw [refOn, if_pos rfl]
    show (fs₁.itable ip).ref - 1 = _
    omega
  · rw [refOn, if_neg other, Nat.sub_zero]

theorem Holding.lock (holding : Holding sb fs fs₁ taken) (node : Node sb fs (fs₁.itable ip).inum)
    (live : 0 < (fs₁.itable ip).ref) :
    ∃ fs₂, ilock sb fs₁ ip = .ok fs₂ ∧ Holding sb fs fs₂ taken ∧ (fs₂.itable ip).valid = true ∧
      (fs₂.itable ip).toDinode = sb.dinode fs.blocks (fs₁.itable ip).inum ∧
      ∀ jp, (fs₂.itable jp).inum = (fs₁.itable jp).inum := by
  have completes := ilock_spec holding.ready live
  unfold ilock at completes ⊢
  dsimp only at completes ⊢
  rw [if_neg (by omega)] at completes ⊢
  by_cases isValid : (fs₁.itable ip).valid = true
  · rw [if_pos isValid]
    have copy := (holding.ready.coherent.copies ip id live isValid).1
    rw [holding.blocks] at copy
    exact ⟨_, rfl, holding, isValid, copy, fun _ => rfl⟩
  · have allocated : (sb.dinode fs₁.blocks (fs₁.itable ip).inum).type ≠ 0 := by
      rw [holding.blocks]
      exact node.allocated
    rw [if_neg isValid, if_neg allocated] at completes ⊢
    rcases completes with ⟨_, result, ready⟩ | failed | failed
    · cases result
      have isSelf : ∀ inode, (fs₁.setInode ip inode).itable ip = inode := fun inode =>
        update_self ..
      refine ⟨_, rfl, holding.assign ready (holding.refs ip) (fun _ _ => rfl) fun _ => rfl, ?_, ?_,
        inum_setInode rfl⟩
      · rw [isSelf]
      · rw [isSelf, ← holding.blocks]
    · cases failed
    · cases failed

def Room (fs : FileSystem) : Prop :=
  ∃ ip jp, ip ≠ jp ∧ (fs.itable ip).ref = 0 ∧ (fs.itable jp).ref = 0

/-- With one inode held there is no room for the next one only if there was no room for two. -/
theorem Holding.noRoom {held : Option InodeId} (holding : Holding sb fs fs₁ (refOn held))
    {panic : Panic} (failed : iget fs₁ inum = .error panic) : panic = .noInodes ∧ ¬ Room fs := by
  obtain ⟨isPanic, allLive⟩ := iget_error failed
  refine ⟨isPanic, fun ⟨first, second, different, firstFree, secondFree⟩ => ?_⟩
  have firstRefs := holding.refs first
  have secondRefs := holding.refs second
  have firstLive := (allLive first).1
  have secondLive := (allLive second).1
  cases held with
  | none =>
      rw [refOn] at firstRefs
      omega
  | some ip =>
      rw [refOn] at firstRefs secondRefs
      split at firstRefs <;> split at secondRefs
      · rename_i isFirst isSecond
        exact different (isFirst.trans isSecond.symm)
      all_goals omega

end Holding

/-! ## Resolution by namex -/

section Namex

variable {sb : Superblock} {fs fs₁ fs₂ : FileSystem} {tree : Nat → List Dirent} {ip cwd : InodeId}
  {taken : InodeId → Nat} {parent : Bool} {name : Name} {inum : Nat}

def TableFull {α : Type} (fs : FileSystem) (result : Except DirectoryPanic α) : Prop :=
  result = .error (.inode .noInodes) ∧ ¬ Room fs

theorem Quiescent.directory (quiescent : Quiescent sb fs tree) (holding : Holding sb fs fs₁ taken)
    (live : 0 < (fs₁.itable ip).ref) (isValid : (fs₁.itable ip).valid = true)
    (isCopy : (fs₁.itable ip).toDinode = sb.dinode fs.blocks (fs₁.itable ip).inum)
    (isDir : (sb.dinode fs.blocks (fs₁.itable ip).inum).type = T_DIR) :
    Directory sb fs₁ ip (tree (fs₁.itable ip).inum) := by
  have inRange := holding.ready.coherent.inRange ip live
  refine ⟨holding.ready, live, isValid, by rw [isCopy]; exact isDir, ?_, fun de member => ?_⟩
  · rw [FileSystem.content, holding.blocks, isCopy]
    exact quiescent.content _ inRange isDir
  · by_cases unused : de.inum = 0
    · rw [unused]
      have rootInRange := quiescent.root.inRange
      exact Nat.lt_of_le_of_lt (Nat.zero_le _) rootInRange
    · exact (quiescent.entries _ inRange isDir de member unused).inRange

theorem Quiescent.dirlookup (quiescent : Quiescent sb fs tree) (name : Name)
    (holding : Holding sb fs fs₁ (refOn (some ip))) (isValid : (fs₁.itable ip).valid = true)
    (isCopy : (fs₁.itable ip).toDinode = sb.dinode fs.blocks (fs₁.itable ip).inum)
    (isDir : (sb.dinode fs.blocks (fs₁.itable ip).inum).type = T_DIR) :
    TableFull fs (Fs.dirlookup sb fs₁ ip name) ∨
    (lookup (tree (fs₁.itable ip).inum) name = none ∧
      Fs.dirlookup sb fs₁ ip name = .ok (none, fs₁)) ∨
    ∃ next off fs₂, Fs.dirlookup sb fs₁ ip name = .ok (some (next, off), fs₂) ∧
      Holding sb fs fs₂ (fun jp => refOn (some ip) jp + refOn (some next) jp) ∧
      lookup (tree (fs₁.itable ip).inum) name = some (fs₂.itable next).inum ∧
      Node sb fs (fs₂.itable next).inum ∧ (fs₂.itable ip).inum = (fs₁.itable ip).inum := by
  have isRefs := holding.refs ip
  rw [refOn, if_pos rfl] at isRefs
  have live : 0 < (fs₁.itable ip).ref := by omega
  have directory := quiescent.directory holding live isValid isCopy isDir
  cases isFirst : (tree (fs₁.itable ip).inum).find? fun de => de.Matches name with
  | none =>
      refine .inr (.inl ⟨by rw [lookup, isFirst]; rfl, dirlookup_unbound directory ?_⟩)
      rintro de ⟨k, isEntry, isKey⟩
      have unmatched := List.find?_eq_none.mp isFirst de (List.mem_of_getElem? isEntry)
      exact unmatched (decide_eq_true (Dirent.matches_iff.mpr isKey))
  | some de =>
      obtain ⟨found, k, inside, isEntry, before⟩ := List.find?_eq_some_iff_getElem.mp isFirst
      have isFound : de.Matches name := of_decide_eq_true found
      have looked : Fs.dirlookup sb fs₁ ip name = foundAt fs₁ de (k * Dirent.codec.width) := by
        refine dirlookup_stored sb directory.stored directory.sized directory.isDir
          (List.getElem?_eq_some_iff.mpr ⟨inside, isEntry⟩) isFound
            fun j other earlier isOther found' => ?_
        obtain ⟨_, rfl⟩ := List.getElem?_eq_some_iff.mp isOther
        have unmatched := before j earlier
        rw [decide_eq_true found'] at unmatched
        cases unmatched
      have node := quiescent.entries _ (holding.ready.coherent.inRange ip live) isDir de
        (List.mem_of_find?_eq_some isFirst) isFound.1
      rw [looked, foundAt]
      cases got : iget fs₁ de.inum.toNat with
      | error panic =>
          obtain ⟨rfl, noRoom⟩ := holding.noRoom got
          exact .inl ⟨rfl, noRoom⟩
      | ok result =>
          obtain ⟨next, fs₂⟩ := result
          obtain ⟨holding', isInode, kept⟩ := holding.get node.inRange got
          refine .inr (.inr ⟨next, _, fs₂, rfl, holding', ?_, ?_, kept ip live⟩)
          · rw [lookup, isFirst, isInode]
            rfl
          · rw [isInode]
            exact node

/-- What a resolution leaves: one reference on the inode it returns. -/
structure Resolved (sb : Superblock) (fs : FileSystem) (tree : Nat → List Dirent) (parent : Bool)
    (start : Nat) (names : List Name) (found : Option (InodeId × Name)) (fs' : FileSystem) :
    Prop where
  holding : Holding sb fs fs' (refOn (found.map Prod.fst))
  number : found.map (fun result => (fs'.itable result.1).inum) =
    target sb fs tree parent start names
  node : ∀ ip name, found = some (ip, name) → Node sb fs (fs'.itable ip).inum
  isDir : parent = true → ∀ ip name, found = some (ip, name) →
    (sb.dinode fs.blocks (fs'.itable ip).inum).type = T_DIR ∧ names.getLast? = some name

/-- The last reference is given back, and the resolution fails. -/
theorem Holding.giveUp (holding : Holding sb fs fs₁ (refOn (some ip)))
    (node : Node sb fs (fs₁.itable ip).inum) {start : Nat} {names : List Name}
    (noTarget : target sb fs tree parent start names = none) :
    ∃ fs₂, iput sb fs₁ ip = .ok fs₂ ∧ Resolved sb fs tree parent start names none fs₂ := by
  obtain ⟨fs₂, given, holding', _⟩ := holding.put node
    (by rw [refOn, if_pos rfl]; exact Nat.one_pos)
  refine ⟨fs₂, given, ?_, noTarget.symm, nofun, nofun⟩
  have noneTaken : (fun jp => refOn (some ip) jp - refOn (some ip) jp) = refOn none :=
    funext fun jp => Nat.sub_self _
  rw [noneTaken] at holding'
  exact holding'

theorem Resolved.step {start next : Nat} {names : List Name} {found : Option (InodeId × Name)}
    (resolved : Resolved sb fs tree parent next names found fs₁)
    (isNext : follow sb fs tree start name = some next) (goesOn : ¬ (parent = true ∧ names = [])) :
    Resolved sb fs tree parent start (name :: names) found fs₁ := by
  refine ⟨resolved.holding, by rw [resolved.number, target_step isNext goesOn], resolved.node,
    fun isParent ip last isFound => ?_⟩
  obtain ⟨isDir, isLast⟩ := resolved.isDir isParent ip last isFound
  refine ⟨isDir, ?_⟩
  rw [List.getLast?_cons, isLast]
  rfl

/-- **Rounds of `namex`.** From the inode that is held, the loop finds what the rest of the path
leads to. -/
theorem namexLoop_spec (quiescent : Quiescent sb fs tree) {rounds : Nat} {path : Path}
    (enough : path.length < rounds) (holding : Holding sb fs fs₁ (refOn (some ip)))
    (node : Node sb fs (fs₁.itable ip).inum) :
    TableFull fs (namexLoop sb parent rounds fs₁ ip path name) ∨
    ∃ found fs₂, namexLoop sb parent rounds fs₁ ip path name = .ok (found, fs₂) ∧
      Resolved sb fs tree parent (fs₁.itable ip).inum (names path) found fs₂ := by
  induction rounds generalizing fs₁ ip path name with
  | zero => exact absurd enough (Nat.not_lt_zero _)
  | succ rounds ih =>
      unfold namexLoop
      cases isNext : skipelem path with
      | none =>
          rw [names_of_none isNext]
          dsimp only
          cases parent with
          | true =>
              have noTarget : target sb fs tree true (fs₁.itable ip).inum [] = none := rfl
              obtain ⟨fs₂, given, resolved⟩ := holding.giveUp node noTarget
              rw [if_pos rfl, given]
              exact .inr ⟨none, fs₂, rfl, resolved⟩
          | false =>
              rw [if_neg Bool.false_ne_true]
              refine .inr ⟨_, fs₁, rfl, holding, rfl, ?_, nofun⟩
              rintro _ _ ⟨⟩
              exact node
      | some next =>
          obtain ⟨name, rest⟩ := next
          obtain ⟨isNames, shorter, isLast⟩ := names_of_some isNext
          have isRefs := holding.refs ip
          rw [refOn, if_pos rfl] at isRefs
          obtain ⟨fs₂, locked, holding₂, isValid, isCopy, kept⟩ := holding.lock node (by omega)
          rw [isNames, locked]
          dsimp only
          rw [← kept ip] at isCopy node ⊢
          have isType : (fs₂.itable ip).type = (sb.dinode fs.blocks (fs₂.itable ip).inum).type := by
            rw [isCopy]
          by_cases isDir : (fs₂.itable ip).type = T_DIR
          · rw [if_neg (not_not.mpr isDir)]
            rw [isType] at isDir
            by_cases stops : parent = true ∧ rest = []
            · -- The directory with the last element.
              obtain ⟨rfl, rfl⟩ := stops
              rw [if_pos ⟨rfl, rfl⟩, isLast.mp rfl]
              refine .inr ⟨_, fs₂, rfl, holding₂, ?_, ?_, ?_⟩
              · rw [target_last, if_pos isDir]
                rfl
              · rintro _ _ ⟨⟩
                exact node
              · rintro _ _ _ ⟨⟩
                exact ⟨isDir, rfl⟩
            · rw [if_neg stops]
              rw [isLast] at stops
              have isFollow : follow sb fs tree (fs₂.itable ip).inum name =
                  lookup (tree (fs₂.itable ip).inum) name := if_pos isDir
              rcases quiescent.dirlookup name holding₂ isValid isCopy isDir with
                full | ⟨absent, looked⟩ | ⟨next, off, fs₃, looked, holding₃, isNumber, node', kept'⟩
              · rw [full.1]
                exact .inl ⟨rfl, full.2⟩
              · obtain ⟨fs₃, given, resolved⟩ := holding₂.giveUp node
                  (target_missing (isFollow.trans absent) stops)
                rw [looked]
                dsimp only
                rw [given]
                exact .inr ⟨none, fs₃, rfl, resolved⟩
              · rw [← kept'] at node
                obtain ⟨fs₄, given, holding₄, kept''⟩ := holding₃.put node (by
                  rw [refOn, if_pos rfl]
                  exact Nat.lt_of_lt_of_le Nat.one_pos (Nat.le_add_right _ _))
                have onlyNext : (fun jp => refOn (some ip) jp + refOn (some next) jp -
                    refOn (some ip) jp) = refOn (some next) :=
                  funext fun jp => Nat.add_sub_cancel_left ..
                rw [onlyNext] at holding₄
                rw [looked]
                dsimp only
                rw [given]
                dsimp only
                rw [← kept''] at isNumber node'
                have later := @ih fs₄ next name rest (by omega) holding₄ node'
                rcases later with full | ⟨found, fs₅, ended, resolved⟩
                · exact .inl full
                · exact .inr ⟨found, fs₅, ended, resolved.step (isFollow.trans isNumber) stops⟩
          · have noTarget : target sb fs tree parent (fs₂.itable ip).inum
                (name :: names rest) = none :=
              target_notDir (isType ▸ isDir)
            obtain ⟨fs₃, given, resolved⟩ := holding₂.giveUp node noTarget
            rw [if_pos isDir, given]
            exact .inr ⟨none, fs₃, rfl, resolved⟩

def startNumber (fs : FileSystem) (cwd : InodeId) (path : Path) : Nat :=
  if path.head? = some slash then ROOTINO else (fs.itable cwd).inum

theorem pathStart_spec (quiescent : Quiescent sb fs tree) (inUse : 0 < (fs.itable cwd).ref)
    (path : Path) :
    (pathStart fs cwd path = .error .noInodes ∧ ¬ Room fs) ∨
    ∃ ip fs₁, pathStart fs cwd path = .ok (ip, fs₁) ∧ Holding sb fs fs₁ (refOn (some ip)) ∧
      (fs₁.itable ip).inum = startNumber fs cwd path ∧ Node sb fs (fs₁.itable ip).inum := by
  have atRest := Holding.refl quiescent.ready
  unfold pathStart startNumber
  split
  · cases got : iget fs ROOTINO with
    | error panic =>
        obtain ⟨rfl, noRoom⟩ := atRest.noRoom got
        exact .inl ⟨rfl, noRoom⟩
    | ok result =>
        obtain ⟨ip, fs₁⟩ := result
        obtain ⟨holding, isRoot, _⟩ := atRest.get quiescent.root.inRange got
        have onlyRoot : (fun jp => refOn none jp + refOn (some ip) jp) = refOn (some ip) :=
          funext fun jp => Nat.zero_add _
        rw [onlyRoot] at holding
        refine .inr ⟨ip, fs₁, rfl, holding, isRoot, ?_⟩
        rw [isRoot]
        exact quiescent.root
  · have sameNumber : ((idup fs cwd).itable cwd).inum = (fs.itable cwd).inum :=
      inum_setInode (by rfl) cwd
    refine .inr ⟨cwd, idup fs cwd, rfl, ?_, sameNumber, ?_⟩
    · refine atRest.assign (quiescent.ready.setRef inUse _) ?_ (fun jp other => ?_) fun _ => rfl
      · rw [refOn, if_pos rfl]
      · exact if_neg other
    · rw [sameNumber]
      exact ⟨quiescent.ready.coherent.inRange cwd inUse, quiescent.used cwd inUse,
        .inr ⟨cwd, inUse, rfl⟩⟩

theorem namex_spec (quiescent : Quiescent sb fs tree) (inUse : 0 < (fs.itable cwd).ref)
    (path : Path) (parent : Bool) :
    TableFull fs (namex sb fs cwd path parent) ∨
    ∃ found fs', namex sb fs cwd path parent = .ok (found, fs') ∧
      Resolved sb fs tree parent (startNumber fs cwd path) (names path) found fs' := by
  unfold namex
  rcases pathStart_spec quiescent inUse path with ⟨failed, noRoom⟩ |
    ⟨ip, fs₁, started, holding, isStart, node⟩
  · rw [failed]
    exact .inl ⟨rfl, noRoom⟩
  · rw [started, ← isStart]
    exact namexLoop_spec quiescent (Nat.lt_succ_self _) holding node

/-- **Path resolution.** The elements of a path are its components, cut to `DIRSIZ` bytes. `namei`
looks them up one after the other. For a path with a component, `nameiparent` fails only if `namei`
does, and otherwise gives a directory and a name with which `dirlookup` finds what `namei` finds.
Each takes one reference, on the inode it returns, and no other reference changes. If the inode
table is full, there is no result. -/
theorem path_resolution (quiescent : Quiescent sb fs tree) (inUse : 0 < (fs.itable cwd).ref)
    (path : Path) :
    elements path = (components path).map (fun word => Name.ofList (word.take DIRSIZ)) ∧
    (TableFull fs (namei sb fs cwd path) ∨
      ∃ found fs', namei sb fs cwd path = .ok (found, fs') ∧ Holding sb fs fs' (refOn found) ∧
        found.map (fun ip => (fs'.itable ip).inum) =
          resolve sb fs tree (startNumber fs cwd path) (elements path)) ∧
    (TableFull fs (nameiparent sb fs cwd path) ∨
      ∃ found fs', nameiparent sb fs cwd path = .ok (found, fs') ∧
        Holding sb fs fs' (refOn (found.map Prod.fst)) ∧
        (components path ≠ [] →
          (found = none → resolve sb fs tree (startNumber fs cwd path) (elements path) = none) ∧
          ∀ dp name, found = some (dp, name) → ∃ fs₁, ilock sb fs' dp = .ok fs₁ ∧
            (TableFull fs (dirlookup sb fs₁ dp name) ∨
              ∃ entry fs₂, dirlookup sb fs₁ dp name = .ok (entry, fs₂) ∧
                entry.map (fun next => (fs₂.itable next.1).inum) =
                  resolve sb fs tree (startNumber fs cwd path) (elements path)))) := by
  have isElements : elements path = names path := skipelems_eq (Nat.le_refl _)
  rw [isElements]
  refine ⟨rfl, ?_, ?_⟩
  · rcases namex_spec quiescent inUse path false with ⟨failed, noRoom⟩ |
      ⟨found, fs', ended, resolved⟩
    · refine .inl ⟨?_, noRoom⟩
      rw [namei, failed]
      rfl
    · refine .inr ⟨found.map Prod.fst, fs', ?_, resolved.holding, ?_⟩
      · rw [namei, ended]
        rfl
      · rw [Option.map_map]
        exact resolved.number
  · rcases namex_spec quiescent inUse path true with full | ⟨found, fs', ended, resolved⟩
    · exact .inl full
    · refine .inr ⟨found, fs', ended, resolved.holding, fun hasComponent => ?_⟩
      have nonEmpty : names path ≠ [] := fun noNames =>
        hasComponent (List.map_eq_nil_iff.mp noNames)
      rw [resolve_eq_parent nonEmpty, ← resolved.number]
      refine ⟨?_, ?_⟩
      · rintro rfl
        rfl
      · rintro dp name rfl
        obtain ⟨isDir, isLast⟩ := resolved.isDir rfl dp name rfl
        have node := resolved.node dp name rfl
        have isName : (names path).getLast nonEmpty = name := by
          rw [List.getLast?_eq_some_getLast nonEmpty] at isLast
          exact Option.some.inj isLast
        have isRefs := resolved.holding.refs dp
        rw [Option.map_some, refOn, if_pos rfl] at isRefs
        obtain ⟨fs₁, locked, holding, isValid, isCopy, kept⟩ :=
          resolved.holding.lock node (by omega)
        rw [← kept dp] at isCopy isDir
        refine ⟨fs₁, locked, ?_⟩
        rw [isName, Option.map_some, Option.bind_some, ← kept dp]
        rcases quiescent.dirlookup name holding isValid isCopy isDir with
          full | ⟨absent, looked⟩ | ⟨next, off, fs₂, looked, _, isNumber, _⟩
        · exact .inl full
        · exact .inr ⟨none, fs₁, looked, absent.symm⟩
        · exact .inr ⟨some (next, off), fs₂, looked, isNumber.symm⟩

/-- An inode that a directory may name: it has a type and a link. -/
def Linked (sb : Superblock) (fs : FileSystem) (inum : Nat) : Prop :=
  inum < sb.ninodes ∧ (sb.dinode fs.blocks inum).type ≠ 0 ∧ (sb.dinode fs.blocks inum).nlink ≠ 0

instance linkedDecidable (sb : Superblock) (fs : FileSystem) (inum : Nat) :
    Decidable (Linked sb fs inum) := inferInstanceAs (Decidable (_ ∧ _))

theorem Linked.node {inum : Nat} (linked : Linked sb fs inum) : Node sb fs inum :=
  ⟨linked.1, linked.2.1, .inl linked.2.2⟩

/-- A directory with these entries, all of which lead to linked inodes. -/
def Lists (sb : Superblock) (fs : FileSystem) (tree : Nat → List Dirent) (inum : Nat) : Prop :=
  (sb.dinode fs.blocks inum).type = T_DIR →
    content fs.blocks (sb.dinode fs.blocks inum) = direntBytes (tree inum) ∧
    ∀ de ∈ tree inum, de.inum ≠ 0 → Linked sb fs de.inum.toNat

instance listsDecidable (sb : Superblock) (fs : FileSystem) (tree : Nat → List Dirent)
    (inum : Nat) :
    Decidable (Lists sb fs tree inum) := inferInstanceAs (Decidable (_ → _))

theorem Ready.quiescent (ready : Ready sb fs) (root : Linked sb fs ROOTINO)
    (used : ∀ jp, 0 < (fs.itable jp).ref → Linked sb fs (fs.itable jp).inum)
    (lists : ∀ inum, inum < sb.ninodes → Lists sb fs tree inum) : Quiescent sb fs tree where
  ready := ready
  root := root.node
  used := fun jp inUse => (used jp inUse).2.1
  content := fun inum inRange isDir => (lists inum inRange isDir).1
  entries := fun inum inRange isDir de member inUse =>
    ((lists inum inRange isDir).2 de member inUse).node

/-- The entries "." for the root and "sh" for a file. -/
def rootEntries : List Dirent :=
  [Dirent.ofName dot ROOTINO, Dirent.ofName (Name.ofList [0x73, 0x68]) 2]

def slot (i : Nat) : InodeId := ⟨i % NINODE, Nat.mod_lt i zero_lt_NINODE⟩

/-- The calls that make a root directory with these entries and a file with these bytes. -/
def install (program : List Byte) : List Call :=
  [.ialloc T_DIR, .ilock (slot 0), .setLinks (slot 0) 0 0 1,
    .writei (slot 0) false ⟨fun _ => false, fun i => (direntBytes rootEntries).getD i 0⟩ 0 0 32,
    .ialloc T_FILE, .ilock (slot 1), .setLinks (slot 1) 0 0 1,
    .writei (slot 1) false ⟨fun _ => false, fun i => program.getD i 0⟩ 0 0
      (BitVec.ofNat 32 program.length)]

theorem exists_installed (program : List Byte)
    (checked : ((mount (emptyImage mkfsSuperblock)).follow mkfsSuperblock (install program)).any
      (fun fs => (∀ jp, 0 < (fs.itable jp).ref → Linked mkfsSuperblock fs (fs.itable jp).inum) ∧
        (∀ inum < 200, Lists mkfsSuperblock fs (fun _ => rootEntries) inum) ∧
        (fs.itable (slot 0)).inum = ROOTINO ∧ 0 < (fs.itable (slot 0)).ref ∧
        (mkfsSuperblock.dinode fs.blocks ROOTINO).type = T_DIR ∧
        content fs.blocks (mkfsSuperblock.dinode fs.blocks 2) = program ∧
        (fs.itable (slot 2)).ref = 0 ∧ (fs.itable (slot 3)).ref = 0) = true) :
    ∃ fs : FileSystem, Quiescent mkfsSuperblock fs (fun _ => rootEntries) ∧
      0 < (fs.itable (slot 0)).ref ∧ (mkfsSuperblock.dinode fs.blocks ROOTINO).type = T_DIR ∧
      content fs.blocks (mkfsSuperblock.dinode fs.blocks 2) = program ∧ Room fs := by
  obtain ⟨fs, reachable, used, lists, isRoot, live, isType, isContent, isFree, isFree'⟩ :=
    Reachable.exists_of_follow mkfsSuperblock (emptyImage mkfsSuperblock)
      (install program) _ checked
  have root := used (slot 0) live
  rw [isRoot] at root
  exact ⟨fs, (reachable.ready (emptyImage_wellFormed mkfsSuperblock)).quiescent root used lists,
    live, isType, isContent, slot 2, slot 3, by decide, isFree, isFree'⟩

/-- The path "/./sh" leads to the file. -/
theorem path_resolution_dots : ∃ fs : FileSystem,
    Quiescent mkfsSuperblock fs (fun _ => rootEntries) ∧ 0 < (fs.itable (slot 0)).ref ∧
    ∃ found fs', namei mkfsSuperblock fs (slot 0) [slash, 0x2E, slash, 0x73, 0x68] =
        .ok (found, fs') ∧ found.map (fun ip => (fs'.itable ip).inum) = some 2 := by
  obtain ⟨fs, quiescent, live, isType, -, room⟩ := exists_installed [] (by decide +kernel)
  have isElements : elements [slash, 0x2E, slash, 0x73, 0x68] =
      [dot, Name.ofList [0x73, 0x68]] := by
    have isComponents : components [slash, 0x2E, slash, 0x73, 0x68] = [[0x2E], [0x73, 0x68]] := by
      decide
    rw [elements, skipelems_eq (Nat.le_refl _), names, isComponents]
    rfl
  have isFound : resolve mkfsSuperblock fs (fun _ => rootEntries) ROOTINO
      (elements [slash, 0x2E, slash, 0x73, 0x68]) = some 2 := by
    have isDot : lookup rootEntries dot = some ROOTINO := by decide +kernel
    have isFile : lookup rootEntries (Name.ofList [0x73, 0x68]) = some 2 := by decide +kernel
    rw [isElements, resolve_cons, follow, if_pos isType, isDot, Option.bind_some, resolve_cons,
      follow, if_pos isType, isFile]
    rfl
  obtain ⟨_, looked, _⟩ := path_resolution quiescent live [slash, 0x2E, slash, 0x73, 0x68]
  rcases looked with ⟨_, noRoom⟩ | ⟨found, fs', ended, _, isTarget⟩
  · exact absurd room noRoom
  · exact ⟨fs, quiescent, live, found, fs', ended, isTarget.trans isFound⟩

end Namex

end Xv6.Fs
