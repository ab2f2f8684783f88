import Xv6.Procs.Machine
import Xv6.Vm.Mapping

/-!
Contract: the page of a pipe lives as long as a file for one of its ends.

Owns: the pipes that open files refer to, what their flags say about the files, and the
specifications of `filealloc`, `filedup`, `fileclose` and `pipealloc`: the pages they
were given and hand back, and the references they add and remove.

Does not own: the descriptors that refer to files.
-/

namespace Xv6.Procs

open Xv6.Kernel
open Xv6.Pools
open Xv6.Vm
open Function

variable {layout : Layout} {m m' m₁ : Memory} {file file' : FileTable} {f g : FileId} {pi : Addr}
  {writable : Bool} {refs : FileId → Nat}

/-- The end of a pipe that an open file is for. -/
def File.pipeEnd (f : File) : Option (Addr × Bool) :=
  if 0 < f.ref ∧ f.type = .FD_PIPE then some (f.pipe, f.writable) else none

def openPipes (file : FileTable) : Finset Addr :=
  Finset.univ.biUnion fun f => ((file f).pipeEnd.map Prod.fst).toFinset

abbrev pipePages (file : FileTable) : Multiset Addr := (openPipes file).val

theorem mem_openPipes :
    pi ∈ openPipes file ↔ ∃ f writable, (file f).pipeEnd = some (pi, writable) := by
  simp [openPipes, Option.map_eq_some_iff]

structure Pipes (m : Memory) (file : FileTable) : Prop where
  /-- A file that is not used has no type. -/
  unused : ∀ f, (file f).ref = 0 → (file f).type = .FD_NONE
  /-- Every end has one file. -/
  single : ∀ f g e, (file f).pipeEnd = some e → (file g).pipeEnd = some e → f = g
  /-- The flag of an end with a file is set. -/
  opened : ∀ f pi writable, (file f).pipeEnd = some (pi, writable) →
    isOpen (m.store pi) writable = 1
  /-- If the flag of the other end is set, it has a file, too. -/
  other : ∀ f pi writable, (file f).pipeEnd = some (pi, writable) →
    isOpen (m.store pi) (!writable) ≠ 0 → ∃ g, (file g).pipeEnd = some (pi, !writable)

/-- Files that are for the same ends have the same pipes. -/
theorem Pipes.congr (pipes : Pipes m file)
    (same : ∀ pi ∈ openPipes file, m'.store pi = m.store pi)
    (sameEnds : ∀ f, (file' f).pipeEnd = (file f).pipeEnd)
    (unused : ∀ f, (file' f).ref = 0 → (file' f).type = .FD_NONE) : Pipes m' file' := by
  refine ⟨unused, fun f g e isEnd isEnd' => ?_, fun f pi writable isEnd => ?_,
    fun f pi writable isEnd isSet => ?_⟩
  · rw [sameEnds] at isEnd isEnd'
    exact pipes.single f g e isEnd isEnd'
  · rw [sameEnds] at isEnd
    rw [same pi (mem_openPipes.mpr ⟨f, writable, isEnd⟩)]
    exact pipes.opened f pi writable isEnd
  · rw [sameEnds] at isEnd
    rw [same pi (mem_openPipes.mpr ⟨f, writable, isEnd⟩)] at isSet
    obtain ⟨g, isOther⟩ := pipes.other f pi writable isEnd isSet
    exact ⟨g, by rw [sameEnds, isOther]⟩

theorem openPipes_congr (sameEnds : ∀ f, (file' f).pipeEnd = (file f).pipeEnd) :
    openPipes file' = openPipes file := by
  ext pi
  simp only [mem_openPipes, sameEnds]

/-- All but the pipe at `pi` is as before. -/
structure SameElse (m m' : Memory) (file file' : FileTable) (pi : Addr) : Prop where
  ends : ∀ g a w, a ≠ pi → ((file' g).pipeEnd = some (a, w) ↔ (file g).pipeEnd = some (a, w))
  kept : ∀ a ∈ openPipes file, a ≠ pi → m'.store a = m.store a
  unused : ∀ g, (file' g).ref = 0 → (file' g).type = .FD_NONE

theorem SameElse.openPipes_erase (same : SameElse m m' file file' pi) :
    (openPipes file').erase pi = (openPipes file).erase pi := by
  ext a
  simp only [Finset.mem_erase, mem_openPipes]
  exact and_congr_right fun different => exists₂_congr fun g w => same.ends g a w different

/-- The rules hold if they hold for the files of the pipe that changes. -/
theorem Pipes.change (pipes : Pipes m file) (same : SameElse m m' file file' pi)
    (single : ∀ g h w, (file' g).pipeEnd = some (pi, w) → (file' h).pipeEnd = some (pi, w) → g = h)
    (opened : ∀ g w, (file' g).pipeEnd = some (pi, w) → isOpen (m'.store pi) w = 1)
    (other : ∀ g w, (file' g).pipeEnd = some (pi, w) → isOpen (m'.store pi) (!w) ≠ 0 →
      ∃ h, (file' h).pipeEnd = some (pi, !w)) : Pipes m' file' := by
  have before : ∀ g a w, a ≠ pi → (file' g).pipeEnd = some (a, w) →
      (file g).pipeEnd = some (a, w) ∧ m'.store a = m.store a := by
    intro g a w different isEnd
    have wasEnd := (same.ends g a w different).mp isEnd
    exact ⟨wasEnd, same.kept a (mem_openPipes.mpr ⟨g, w, wasEnd⟩) different⟩
  refine ⟨same.unused, fun g h e isOne isTwo => ?_, fun g a w isEnd => ?_,
    fun g a w isEnd isSet => ?_⟩
  · obtain ⟨a, w⟩ := e
    by_cases isPi : a = pi
    · subst isPi
      exact single g h w isOne isTwo
    · exact pipes.single g h _ (before g a w isPi isOne).1 (before h a w isPi isTwo).1
  · by_cases isPi : a = pi
    · subst isPi
      exact opened g w isEnd
    · obtain ⟨wasEnd, sameStore⟩ := before g a w isPi isEnd
      rw [sameStore]
      exact pipes.opened g a w wasEnd
  · by_cases isPi : a = pi
    · subst isPi
      exact other g w isEnd isSet
    · obtain ⟨wasEnd, sameStore⟩ := before g a w isPi isEnd
      rw [sameStore] at isSet
      obtain ⟨h, wasOther⟩ := pipes.other g a w wasEnd isSet
      exact ⟨h, (same.ends h a _ isPi).mpr wasOther⟩

/-! ## filealloc and filedup -/

/-- What the file operations do to files, pages and references. -/
structure Filed (m m' : Memory) (file file' : FileTable) (refs : FileId → Nat) : Prop where
  transfer : Transfer m m' (pipePages file) (pipePages file')
  pipes : Pipes m' file'
  ref : ∀ f, (file' f).ref = refs f

/-- One file is written, and is for the same end as before. -/
theorem Pipes.write (pipes : Pipes m file) (entry : File)
    (sameEnd : entry.pipeEnd = (file f).pipeEnd)
    (unused : entry.ref = 0 → entry.type = .FD_NONE) :
    Filed m m file (update file f entry)
      (update (fun f => (file f).ref) f entry.ref) := by
  have sameEnds : ∀ g, (update file f entry g).pipeEnd = (file g).pipeEnd := by
    intro g
    rw [update_apply]
    split
    · rename_i same
      rw [sameEnd, same]
    · rfl
  refine ⟨?_, pipes.congr (fun _ _ => rfl) sameEnds fun g isUnused => ?_, fun g => ?_⟩
  · rw [pipePages, pipePages, openPipes_congr sameEnds]
    exact .refl _ _
  · rw [update_apply] at isUnused ⊢
    split at isUnused
    · rename_i same
      rw [if_pos same]
      exact unused isUnused
    · rename_i different
      rw [if_neg different]
      exact pipes.unused g isUnused
  · rw [update_apply, update_apply]
    split <;> rfl

theorem pipeEnd_of_type {entry : File} (notPipe : entry.type ≠ .FD_PIPE) : entry.pipeEnd = none :=
  if_neg fun both => notPipe both.2

theorem filealloc_spec (pipes : Pipes m file) (allocated : filealloc file = some (f, file')) :
    (file f).ref = 0 ∧ file' = update file f { file f with ref := 1 } ∧
      Filed m m file file' (update (fun f => (file f).ref) f 1) := by
  obtain ⟨f', found, isResult⟩ := Option.map_eq_some_iff.mp allocated
  cases isResult
  have isFree : (file f).ref = 0 := by simpa using List.find?_some found
  have noType := pipes.unused f isFree
  have notPipe : (file f).type ≠ .FD_PIPE := by
    rw [noType]
    decide
  have unpiped : ({ file f with ref := 1 } : File).pipeEnd = none := pipeEnd_of_type notPipe
  exact ⟨isFree, rfl, pipes.write _ (by rw [unpiped, pipeEnd_of_type notPipe]) nofun⟩

theorem filedup_spec (pipes : Pipes m file) (isRef : 0 < (file f).ref) :
    ∃ file', filedup file f = .ok file' ∧
      Filed m m file file' (update (fun f => (file f).ref) f ((file f).ref + 1)) := by
  refine ⟨_, if_neg (by omega), pipes.write _ ?_ nofun⟩
  simp [File.pipeEnd, isRef]

/-! ## fileclose -/

theorem isOpen_setEnds (m : Memory) (pi : Addr) (readopen writeopen : BitVec 32) (writable : Bool) :
    isOpen ((setEnds m pi readopen writeopen).store pi) writable =
      if writable then writeopen else readopen := by
  have word : (setEnds m pi readopen writeopen).store pi endsWord = writeopen ++ readopen := by
    rw [setEnds, store_setPte, update_self]
  rw [isOpen, word]
  cases writable with
  | false =>
      ext i inside
      simp only [Bool.false_eq_true, if_false, BitVec.getElem_extractLsb', Nat.zero_add]
      exact (BitVec.getLsbD_append ..).trans (by simp [inside])
  | true =>
      ext i inside
      simp only [if_true, BitVec.getElem_extractLsb']
      exact (BitVec.getLsbD_append ..).trans (by simp [inside])

/-- **`pipeclose`** clears the flag of its end, and gives the page back with the last. -/
theorem pipeclose_spec (isPage : layout.IsPage pi) (writable : Bool) :
    ∃ m', pipeclose layout m pi writable = .ok m' ∧
      (isOpen (m.store pi) (!writable) = 0 ∧ Transfer m m' {pi} 0 ∨
        isOpen (m.store pi) (!writable) ≠ 0 ∧ Transfer m m' {pi} {pi} ∧
          isOpen (m'.store pi) writable = 0 ∧
          isOpen (m'.store pi) (!writable) = isOpen (m.store pi) (!writable)) := by
  generalize isClosed : (if writable then setEnds m pi (isOpen (m.store pi) false) 0
    else setEnds m pi 0 (isOpen (m.store pi) true)) = m₁
  have wrote : Transfer m m₁ {pi} {pi} := by
    rw [← isClosed]
    split <;> exact Transfer.write m (Multiset.mem_singleton_self pi) _
  have own : isOpen (m₁.store pi) writable = 0 := by
    rw [← isClosed]
    cases writable <;> exact isOpen_setEnds ..
  have other : isOpen (m₁.store pi) (!writable) = isOpen (m.store pi) (!writable) := by
    rw [← isClosed]
    cases writable <;> exact isOpen_setEnds ..
  have bothClosed : isOpen (m₁.store pi) false = 0 ∧ isOpen (m₁.store pi) true = 0 ↔
      isOpen (m.store pi) (!writable) = 0 := by
    rw [← other]
    cases writable with
    | false => exact ⟨fun both => both.2, fun isZero => ⟨own, isZero⟩⟩
    | true => exact ⟨fun both => both.1, fun isZero => ⟨isZero, own⟩⟩
  simp only [pipeclose, isClosed]
  by_cases isLast : isOpen (m.store pi) (!writable) = 0
  · obtain ⟨m', freed, released⟩ := kfree_spec (m := m₁) isPage
    rw [if_pos (bothClosed.mpr isLast)]
    exact ⟨m', freed, .inl ⟨isLast, wrote.trans released⟩⟩
  · rw [if_neg fun both => isLast (bothClosed.mp both)]
    exact ⟨m₁, rfl, .inr ⟨isLast, wrote, own, other⟩⟩

theorem pipePages_split (member : pi ∈ openPipes file) :
    pipePages file = {pi} + ((openPipes file).erase pi).val := by
  rw [Finset.erase_val, Multiset.singleton_add, Multiset.cons_erase member]

/-- The last reference to a file for the end of a pipe goes. -/
theorem Pipes.closeEnd (pipes : Pipes m file) (owned : Owned layout m (pipePages file))
    (isEnd : (file f).pipeEnd = some (pi, writable)) (entry : File) (unused : entry.ref = 0)
    (untyped : entry.type = .FD_NONE) :
    ∃ m', pipeclose layout m pi writable = .ok m' ∧
      Filed m m' file (update file f entry)
        (update (fun f => (file f).ref) f entry.ref) := by
  have member : pi ∈ openPipes file := mem_openPipes.mpr ⟨f, writable, isEnd⟩
  have isPage := owned.pages pi (Multiset.mem_add.mpr (.inr member))
  obtain ⟨m', ran, outcome⟩ := pipeclose_spec (m := m) isPage writable
  refine ⟨m', ran, ?_⟩
  have noEnd : entry.pipeEnd = none := if_neg fun both => by omega
  -- The ends that are left are those of the other files.
  have remaining : ∀ g e, (update file f entry g).pipeEnd = some e ↔
      g ≠ f ∧ (file g).pipeEnd = some e := by
    intro g e
    rw [update_apply]
    split
    · rename_i same
      rw [noEnd]
      exact ⟨nofun, fun both => absurd same both.1⟩
    · rename_i different
      exact ⟨fun isOther => ⟨different, isOther⟩, fun both => both.2⟩
  have onlyOther : ∀ g w, (update file f entry g).pipeEnd = some (pi, w) →
      w = (!writable) ∧ (file g).pipeEnd = some (pi, w) := by
    intro g w isOne
    obtain ⟨different, before⟩ := (remaining g _).mp isOne
    refine ⟨Bool.eq_not.mpr fun isSame => ?_, before⟩
    rw [isSame] at before
    exact different (pipes.single g f _ before isEnd)
  have given : ∃ back, Transfer m m' {pi} back := by
    rcases outcome with ⟨-, released⟩ | ⟨-, wrote, -⟩
    · exact ⟨0, released⟩
    · exact ⟨_, wrote⟩
  have same : SameElse m m' file (update file f entry) pi := by
    refine ⟨fun g a w different => ?_, fun a isPipe different => ?_, fun g isUnused => ?_⟩
    · refine (remaining g _).trans ⟨fun both => both.2, fun before => ⟨fun isF => ?_, before⟩⟩
      rw [isF, isEnd] at before
      exact different (congrArg Prod.fst (Option.some.inj before)).symm
    · obtain ⟨back, moved⟩ := given
      have arranged := owned
      rw [pipePages_split member] at arranged
      exact arranged.untouched moved (Finset.mem_erase.mpr ⟨different, isPipe⟩)
    · rw [update_apply] at isUnused ⊢
      split at isUnused
      · rename_i isF
        rw [if_pos isF, untyped]
      · rename_i different
        rw [if_neg different]
        exact pipes.unused g isUnused
  have single : ∀ g h w, (update file f entry g).pipeEnd = some (pi, w) →
      (update file f entry h).pipeEnd = some (pi, w) → g = h := by
    intro g h w isOne isTwo
    exact pipes.single g h _ ((remaining g _).mp isOne).2 ((remaining h _).mp isTwo).2
  have refs : ∀ g, (update file f entry g).ref =
      update (fun f => (file f).ref) f entry.ref g := by
    intro g
    rw [update_apply, update_apply]
    split <;> rfl
  rcases outcome with ⟨isLast, released⟩ | ⟨isShared, wrote, own, other⟩
  · have gone : ∀ g w, (update file f entry g).pipeEnd ≠ some (pi, w) := by
      intro g w isOne
      obtain ⟨isOther, before⟩ := onlyOther g w isOne
      rw [isOther] at before
      rw [pipes.opened g pi _ before] at isLast
      exact absurd isLast (by decide)
    have notPipe : pi ∉ openPipes (update file f entry) := by
      rw [mem_openPipes]
      rintro ⟨g, w, isOne⟩
      exact gone g w isOne
    refine ⟨?_, pipes.change same single (fun g w isOne => absurd isOne (gone g w))
      fun g w isOne => absurd isOne (gone g w), refs⟩
    rw [pipePages_split member, pipePages, ← Finset.erase_eq_of_notMem notPipe,
      same.openPipes_erase]
    exact (released.add _).congr rfl (zero_add _).symm
  · obtain ⟨partner, isPartner⟩ := pipes.other f pi writable isEnd isShared
    have partnerStays : (update file f entry partner).pipeEnd = some (pi, !writable) := by
      refine (remaining partner _).mpr ⟨fun isF => ?_, isPartner⟩
      rw [isF, isEnd] at isPartner
      have sameEnd := congrArg Prod.snd (Option.some.inj isPartner)
      cases writable <;> cases sameEnd
    refine ⟨?_, pipes.change same single (fun g w isOne => ?_) (fun g w isOne isSet => ?_), refs⟩
    · refine wrote.widen (pipePages_split member) ?_
      rw [pipePages_split (mem_openPipes.mpr ⟨partner, _, partnerStays⟩), same.openPipes_erase]
    · rw [(onlyOther g w isOne).1, other]
      exact pipes.opened partner _ _ isPartner
    · rw [(onlyOther g w isOne).1, Bool.not_not] at isSet
      exact absurd own isSet

/-- **`fileclose`** drops one reference, and with the last one the end of a pipe. -/
theorem fileclose_spec (pipes : Pipes m file) (owned : Owned layout m (pipePages file))
    (isRef : 0 < (file f).ref) :
    ∃ m' file', fileclose layout m file f = .ok (m', file') ∧
      Filed m m' file file' (update (fun f => (file f).ref) f ((file f).ref - 1)) := by
  rw [fileclose, if_neg (by omega)]
  by_cases isShared : (file f).ref - 1 > 0
  · rw [if_pos isShared]
    have sameEnd : ({ file f with ref := (file f).ref - 1 } : File).pipeEnd = (file f).pipeEnd := by
      simp only [File.pipeEnd, isRef, isShared]
    exact ⟨m, _, rfl, pipes.write _ sameEnd fun isZero => by simp at isZero; omega⟩
  · have isLast : (file f).ref - 1 = 0 := by omega
    rw [if_neg isShared, isLast]
    by_cases isPipe : (file f).type = .FD_PIPE
    · have isEnd : (file f).pipeEnd = some ((file f).pipe, (file f).writable) :=
        if_pos ⟨isRef, isPipe⟩
      obtain ⟨m', ran, filed⟩ := pipes.closeEnd owned isEnd
        { file f with ref := 0, type := .FD_NONE } rfl rfl
      refine ⟨m', _, ?_, filed⟩
      simp only [if_pos isPipe, ran]
      rfl
    · refine ⟨m, _, if_neg isPipe, pipes.write { file f with ref := 0, type := .FD_NONE } ?_
        fun _ => rfl⟩
      rw [pipeEnd_of_type isPipe]
      exact pipeEnd_of_type (show FileType.FD_NONE ≠ .FD_PIPE by decide)

/-! ## pipealloc -/

theorem Filed.trans {file₁ : FileTable} {refs₁ : FileId → Nat} (first : Filed m m₁ file file₁ refs₁)
    (second : Filed m₁ m' file₁ file' refs) :
    Filed m m' file file' refs :=
  ⟨first.transfer.trans second.transfer, second.pipes, second.ref⟩

theorem Filed.close (filed : Filed m m₁ file file' refs) (owned : Owned layout m (pipePages file))
    (isOne : refs f = 1) :
    ∃ m' file'', fileclose layout m₁ file' f = .ok (m', file'') ∧
      Filed m m' file file'' (update refs f 0) := by
  obtain ⟨m', file'', ran, closed⟩ := fileclose_spec (f := f) filed.pipes
    (owned.moved filed.transfer) (by rw [filed.ref, isOne]; decide)
  refine ⟨m', file'', ran, (filed.trans closed).transfer, closed.pipes, fun g => ?_⟩
  rw [closed.ref, update_apply, update_apply]
  split
  · rw [filed.ref, isOne]
  · exact filed.ref g

/-- Two files for the ends of a pipe in a page that was free. -/
theorem Pipes.newPipe (pipes : Pipes m file) (owned : Owned layout m (pipePages file))
    (taken : Transfer m m' 0 {pi}) (readEnd : isOpen (m'.store pi) false = 1)
    (writeEnd : isOpen (m'.store pi) true = 1) (wasFree : pi ∈ m.free) {f0 f1 : FileId}
    (noEnd0 : (file f0).pipeEnd = none) (noEnd1 : (file f1).pipeEnd = none)
    (isEnd0 : (file' f0).pipeEnd = some (pi, false)) (isEnd1 : (file' f1).pipeEnd = some (pi, true))
    (others : ∀ g, g ≠ f0 → g ≠ f1 → file' g = file g) :
    Transfer m m' (pipePages file) (pipePages file') ∧ Pipes m' file' := by
  have isNew : pi ∉ openPipes file := owned.not_mem_of_free wasFree
  have kept : ∀ a ∈ openPipes file, m'.store a = m.store a := by
    intro a member
    have withNothing : Owned layout m (0 + pipePages file) := by rwa [zero_add]
    exact withNothing.untouched taken member
  -- The ends of the new pipe are the two files, which had none.
  have newEnd : ∀ w, (file' (if w then f1 else f0)).pipeEnd = some (pi, w) := by
    intro w
    cases w with
    | false => exact isEnd0
    | true => exact isEnd1
  have origin : ∀ g, (∃ w : Bool, g = if w then f1 else f0) ∧ (file g).pipeEnd = none ∨
      file' g = file g := by
    intro g
    by_cases isRead : g = f0
    · exact .inl ⟨⟨false, isRead⟩, isRead ▸ noEnd0⟩
    · by_cases isWrite : g = f1
      · exact .inl ⟨⟨true, isWrite⟩, isWrite ▸ noEnd1⟩
      · exact .inr (others g isRead isWrite)
  have isNewEnd : ∀ g w, (file' g).pipeEnd = some (pi, w) → g = if w then f1 else f0 := by
    intro g w isEnd
    rcases origin g with ⟨⟨w', isG⟩, -⟩ | isOld
    · rw [isG, newEnd] at isEnd
      cases isEnd
      exact isG
    · rw [isOld] at isEnd
      exact absurd (mem_openPipes.mpr ⟨g, w, isEnd⟩) isNew
  have same : SameElse m m' file file' pi := by
    refine ⟨fun g a w notNew => ?_, fun a isPipe _ => kept a isPipe, fun g isUnused => ?_⟩
    · rcases origin g with ⟨⟨w', rfl⟩, noEnd⟩ | isOld
      · rw [newEnd, noEnd]
        refine ⟨fun isEnd => ?_, nofun⟩
        cases isEnd
        exact absurd rfl notNew
      · rw [isOld]
    · rcases origin g with ⟨⟨w', rfl⟩, -⟩ | isOld
      · have noEnd : (file' (if w' then f1 else f0)).pipeEnd = none :=
          if_neg fun both => by omega
        rw [newEnd] at noEnd
        cases noEnd
      · rw [isOld] at isUnused ⊢
        exact pipes.unused g isUnused
  constructor
  · rw [pipePages_split (mem_openPipes.mpr ⟨_, false, newEnd false⟩), same.openPipes_erase,
      Finset.erase_eq_of_notMem isNew]
    exact (taken.add _).congr (zero_add _).symm rfl
  · refine pipes.change same (fun g h w isOne isTwo => ?_) (fun g w _ => ?_)
      fun g w _ _ => ⟨_, newEnd (!w)⟩
    · rw [isNewEnd g w isOne, isNewEnd h w isTwo]
    · cases w with
      | false => exact readEnd
      | true => exact writeEnd

/-- **`pipealloc`** makes two files with one reference each, or leaves all as it was. -/
theorem pipealloc_spec (pipes : Pipes m file) (owned : Owned layout m (pipePages file)) :
    ∃ result m' file', pipealloc layout m file = .ok (result, m', file') ∧
      (result = none ∧ Filed m m' file file' (fun f => (file f).ref) ∨
        ∃ f0 f1, result = some (f0, f1) ∧ f1 ≠ f0 ∧ (file f0).ref = 0 ∧ (file f1).ref = 0 ∧
          Filed m m' file file'
            (update (update (fun f => (file f).ref) f0 1) f1 1)) := by
  cases first : filealloc file with
  | none =>
      refine ⟨none, m, file, ?_, .inl ⟨rfl, .refl _ _, pipes, fun _ => rfl⟩⟩
      simp only [pipealloc, first]
  | some one =>
      obtain ⟨f0, file₁⟩ := one
      obtain ⟨isFree0, isFile₁, filed₁⟩ := filealloc_spec pipes first
      have undo0 : update (update (fun f => (file f).ref) f0 1) f0 0 =
          fun f => (file f).ref := by
        rw [update_idem, ← isFree0, update_eq_self f0 (fun f => (file f).ref)]
      cases second : filealloc file₁ with
      | none =>
          obtain ⟨m', file', ran, closed⟩ := filed₁.close owned (update_self ..)
          refine ⟨none, m', file', ?_, .inl ⟨rfl, undo0 ▸ closed⟩⟩
          simp only [pipealloc, first, second, ran]
          rfl
      | some two =>
          obtain ⟨f1, file₂⟩ := two
          obtain ⟨isFree1, isFile₂, filed₂⟩ := filealloc_spec filed₁.pipes second
          have different : f1 ≠ f0 := by
            intro same
            rw [same, filed₁.ref, update_self] at isFree1
            cases isFree1
          have wasFree1 : (file f1).ref = 0 := by
            rw [← isFree1, isFile₁, update_of_ne different]
          have refs₁ : (fun f => (file₁ f).ref) = update (fun f => (file f).ref) f0 1 :=
            funext filed₁.ref
          have filed : Filed m m file file₂
              (update (update (fun f => (file f).ref) f0 1) f1 1) :=
            refs₁ ▸ filed₁.trans filed₂
          have isOne0 : update (update (fun f => (file f).ref) f0 1) f1 1 f0 = 1 := by
            rw [update_of_ne different.symm, update_self]
          cases allocated : kalloc m with
          | none =>
              obtain ⟨m₁, file₃, ran, closed⟩ := filed.close owned isOne0
              obtain ⟨m', file', ran', closed'⟩ := closed.close (f := f1) owned
                (by rw [update_of_ne different, update_self])
              have undo : update (update (update (update
                  (fun f => (file f).ref) f0 1) f1 1) f0 0) f1 0 = fun f => (file f).ref := by
                rw [update_comm different.symm, update_idem,
                  update_comm different, undo0, ← wasFree1,
                  update_eq_self f1 (fun f => (file f).ref)]
              refine ⟨none, m', file', ?_, .inl ⟨rfl, undo ▸ closed'⟩⟩
              simp only [pipealloc, first, second, allocated, ran, Except.bind, ran']
              rfl
          | some allocation =>
              obtain ⟨pi, m₁⟩ := allocation
              obtain ⟨allocation, wasFree⟩ := kalloc_eq_some allocated
              have taken : Transfer m (setPte (setEnds m₁ pi 1 1) pi 67 0) 0 {pi} :=
                (allocation.trans (Transfer.write m₁ (Multiset.mem_singleton_self pi) _)).trans
                  (Transfer.write _ (Multiset.mem_singleton_self pi) _)
              have isSet : ∀ w, isOpen ((setPte (setEnds m₁ pi 1 1) pi 67 0).store pi) w = 1 := by
                intro w
                have sameWord : (setPte (setEnds m₁ pi 1 1) pi 67 0).store pi endsWord =
                    (setEnds m₁ pi 1 1).store pi endsWord := by
                  rw [store_setPte, update_of_ne (by decide)]
                have isOne : isOpen ((setPte (setEnds m₁ pi 1 1) pi 67 0).store pi) w =
                    if w then 1 else 1 := by
                  rw [← isOpen_setEnds m₁ pi 1 1 w, isOpen, isOpen, sameWord]
                rw [isOne]
                cases w <;> rfl
              have notPipe0 : (file₂ f0).type = .FD_NONE := by
                rw [isFile₂, update_of_ne different.symm, isFile₁, update_self]
                exact pipes.unused f0 isFree0
              have notPipe1 : (file₂ f1).type = .FD_NONE := by
                rw [isFile₂, update_self]
                exact filed₁.pipes.unused f1 isFree1
              have ref0 : (file₂ f0).ref = 1 := by rw [filed.ref, isOne0]
              have ref1 : (file₂ f1).ref = 1 := by rw [filed.ref, update_self]
              generalize isFile₃ : update file₂ f0 { file₂ f0 with
                type := .FD_PIPE, readable := true, writable := false, pipe := pi } = file₃
              have same1 : file₃ f1 = file₂ f1 := by rw [← isFile₃, update_of_ne different]
              generalize isFile₄ : update file₃ f1 { file₃ f1 with
                type := .FD_PIPE, readable := false, writable := true, pipe := pi } = file₄
              have at0 : file₄ f0 = { file₂ f0 with
                  type := .FD_PIPE, readable := true, writable := false, pipe := pi } := by
                rw [← isFile₄, update_of_ne different.symm, ← isFile₃, update_self]
              have at1 : file₄ f1 = { file₂ f1 with
                  type := .FD_PIPE, readable := false, writable := true, pipe := pi } := by
                rw [← isFile₄, update_self, same1]
              have others : ∀ g, g ≠ f0 → g ≠ f1 → file₄ g = file₂ g := by
                intro g not0 not1
                rw [← isFile₄, update_of_ne not1, ← isFile₃, update_of_ne not0]
              obtain ⟨moved, pipes'⟩ := filed.pipes.newPipe (owned.moved filed.transfer) taken
                (isSet false) (isSet true) wasFree
                (pipeEnd_of_type (by rw [notPipe0]; decide))
                (pipeEnd_of_type (by rw [notPipe1]; decide))
                (by rw [at0]; simp [File.pipeEnd, ref0]) (by rw [at1]; simp [File.pipeEnd, ref1])
                others
              refine ⟨some (f0, f1), _, file₄, ?_, .inr ⟨f0, f1, rfl, different, isFree0, wasFree1,
                filed.transfer.trans moved, pipes', fun g => ?_⟩⟩
              · simp only [pipealloc, first, second, allocated, isFile₃, isFile₄]
              · rw [← filed.ref g]
                by_cases not0 : g = f0
                · rw [not0, at0]
                · by_cases not1 : g = f1
                  · rw [not1, at1]
                  · rw [others g not0 not1]

end Xv6.Procs
