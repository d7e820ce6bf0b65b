import UCore.Fs.SfsSpace

/-!
Contract: the slots of inodes under changes to the disk and to the inodes in memory.

Owns:
- which changes leave every slot as it is;
- filling a slot with a new block, and emptying one, with the free map kept exact;
- the relation between the states around such a change.

Does not own: the functions of the kernel that make the changes.
-/

set_option autoImplicit false

namespace UCore.Fs

open UCore.Lib

variable {sfs after : SfsFs} {inos : List Nat} {ino index block : Nat} {sin sin' : SfsInode}

/-! ## Inodes and slots of a changed state -/

theorem dinOf_loaded (loaded : sfs.inodes ino = some sin) : dinOf sfs ino = sin.din := by
  simp only [dinOf, loaded]

theorem dinOf_unloaded (absent : sfs.inodes ino = none) :
    dinOf sfs ino = DiskInode.ofBytes (sfs.disk ino) := by
  simp only [dinOf, absent]

theorem dinOf_congr (inodes : after.inodes ino = sfs.inodes ino)
    (stored : sfs.inodes ino = none → after.disk ino = sfs.disk ino) :
    dinOf after ino = dinOf sfs ino := by
  unfold dinOf
  rw [inodes]
  cases loaded : sfs.inodes ino with
  | some sin => rfl
  | none => exact congrArg DiskInode.ofBytes (stored loaded)

theorem SamePointers.symm {left right : DiskInode} (same : SamePointers left right) :
    SamePointers right left :=
  ⟨fun index inside => (same.1 index inside).symm, same.2.symm⟩

theorem SamePointers.trans {left middle right : DiskInode} (first : SamePointers left middle)
    (second : SamePointers middle right) : SamePointers left right :=
  ⟨fun index inside => (first.1 index inside).trans (second.1 index inside),
    first.2.trans second.2⟩

theorem slotOf_direct {disk : Nat → Bytes} {din : DiskInode} (direct : index < sfsNdirect) :
    slotOf disk din index = din.direct index :=
  if_pos direct

theorem slotOf_entry {disk : Nat → Bytes} {din : DiskInode} (beyond : ¬ index < sfsNdirect)
    (inside : index < slotCount) (nonzero : din.indirect ≠ 0) :
    slotOf disk din index = entryOf (disk din.indirect) (index - sfsNdirect) := by
  rw [slotOf, if_neg beyond, if_pos ⟨inside, nonzero⟩]

theorem slotOf_empty {disk : Nat → Bytes} {din : DiskInode} (beyond : ¬ index < sfsNdirect)
    (empty : slotCount ≤ index ∨ din.indirect = 0) : slotOf disk din index = 0 := by
  rw [slotOf, if_neg beyond, if_neg]
  rintro ⟨inside, nonzero⟩
  rcases empty with outside | zero
  · omega
  · exact nonzero zero

theorem slotOf_congr {disk disk' : Nat → Bytes} {din din' : DiskInode}
    (same : SamePointers din' din)
    (entries : din.indirect ≠ 0 → disk' din.indirect = disk din.indirect) :
    slotOf disk' din' index = slotOf disk din index := by
  obtain ⟨direct, indirect⟩ := same
  by_cases isDirect : index < sfsNdirect
  · rw [slotOf_direct isDirect, slotOf_direct isDirect, direct index isDirect]
  · by_cases reached : index < slotCount ∧ din.indirect ≠ 0
    · rw [slotOf_entry isDirect reached.1 reached.2,
        slotOf_entry isDirect reached.1 (indirect ▸ reached.2), indirect, entries reached.2]
    · have empty : slotCount ≤ index ∨ din.indirect = 0 := by
        by_contra neither
        apply reached
        constructor
        · omega
        · exact fun zero => neither (Or.inr zero)
      rw [slotOf_empty isDirect empty, slotOf_empty isDirect (indirect ▸ empty)]

/-- No inode of the image is read from the block, neither its fields nor its entries. -/
structure Unread (sfs : SfsFs) (inos : List Nat) (block : Nat) : Prop where
  notInode : ∀ ino, ino ∈ inos → sfs.inodes ino = none → ino ≠ block
  notIndirect : ∀ ino, ino ∈ inos → (dinOf sfs ino).indirect ≠ 0 →
    (dinOf sfs ino).indirect ≠ block

namespace Unread

variable {bytes : Bytes}

theorem dinOf (unread : Unread sfs inos block) (member : ino ∈ inos) :
    dinOf (sfs.setBlock block bytes) ino = dinOf sfs ino :=
  dinOf_congr rfl fun absent => Function.update_of_ne (unread.notInode ino member absent) _ _

theorem slotAt (unread : Unread sfs inos block) (member : ino ∈ inos) :
    slotAt (sfs.setBlock block bytes) ino index = slotAt sfs ino index := by
  unfold Fs.slotAt
  rw [unread.dinOf member]
  exact slotOf_congr ⟨fun _ _ => rfl, rfl⟩
    fun nonzero => Function.update_of_ne (unread.notIndirect ino member nonzero) _ _

end Unread

/-! ## References of a changed state -/

theorem metadata_target_congr (blocks : after.blocks = sfs.blocks) :
    target after inos (.metadata block) = target sfs inos (.metadata block) := by
  have same : IsMetadata after block ↔ IsMetadata sfs block := by
    unfold IsMetadata
    rw [blocks]
  exact if_congr same rfl rfl

theorem indirect_target_congr
    (same : ino ∈ inos → (dinOf after ino).indirect = (dinOf sfs ino).indirect) :
    target after inos (.indirect ino) = target sfs inos (.indirect ino) := by
  by_cases member : ino ∈ inos
  · rw [target, target, same member]
  · rw [target, target, if_neg member, if_neg member]

theorem slot_target_congr (same : ino ∈ inos → slotAt after ino index = slotAt sfs ino index) :
    target after inos (.slot ino index) = target sfs inos (.slot ino index) := by
  by_cases member : ino ∈ inos
  · rw [target, target, same member]
  · rw [target, target, if_neg member, if_neg member]

theorem target_congr (blocks : after.blocks = sfs.blocks)
    (indirects : ∀ ino, ino ∈ inos → (dinOf after ino).indirect = (dinOf sfs ino).indirect)
    (slots : ∀ ino, ino ∈ inos → ∀ index, slotAt after ino index = slotAt sfs ino index) :
    target after inos = target sfs inos := by
  funext reference
  cases reference with
  | metadata block => exact metadata_target_congr blocks
  | inode ino => rfl
  | indirect ino => exact indirect_target_congr (indirects ino)
  | slot ino index => exact slot_target_congr fun member => slots ino member index

/-- One slot changes. -/
theorem target_slot (blocks : after.blocks = sfs.blocks) (member : ino ∈ inos)
    (indirects : ∀ other, other ∈ inos →
      (dinOf after other).indirect = (dinOf sfs other).indirect)
    (slots : ∀ other, other ∈ inos → ∀ place, other ≠ ino ∨ place ≠ index →
      slotAt after other place = slotAt sfs other place) :
    target after inos =
      Function.update (target sfs inos) (.slot ino index) (present (slotAt after ino index)) := by
  funext reference
  by_cases changed : reference = .slot ino index
  · subst changed
    rw [Function.update_self]
    exact if_pos member
  · rw [Function.update_of_ne changed]
    cases reference with
    | metadata block => exact metadata_target_congr blocks
    | inode other => rfl
    | indirect other => exact indirect_target_congr (indirects other)
    | slot other place =>
        have apart : other ≠ ino ∨ place ≠ index := by
          by_contra same
          push Not at same
          exact changed (by rw [same.1, same.2])
        exact slot_target_congr fun isMember => slots other isMember place apart

/-- The indirect block of one inode changes. -/
theorem target_indirect (blocks : after.blocks = sfs.blocks) (member : ino ∈ inos)
    (indirects : ∀ other, other ∈ inos → other ≠ ino →
      (dinOf after other).indirect = (dinOf sfs other).indirect)
    (slots : ∀ other, other ∈ inos → ∀ place, slotAt after other place = slotAt sfs other place) :
    target after inos =
      Function.update (target sfs inos) (.indirect ino) (present (dinOf after ino).indirect) := by
  funext reference
  by_cases changed : reference = .indirect ino
  · subst changed
    rw [Function.update_self]
    exact if_pos member
  · rw [Function.update_of_ne changed]
    cases reference with
    | metadata block => exact metadata_target_congr blocks
    | inode other => rfl
    | indirect other =>
        have apart : other ≠ ino := fun same => changed (by rw [same])
        exact indirect_target_congr fun isMember => indirects other isMember apart
    | slot other place => exact slot_target_congr fun isMember => slots other isMember place

theorem target_of_slot (member : ino ∈ inos) (nonzero : slotAt sfs ino index ≠ 0) :
    target sfs inos (.slot ino index) = some (slotAt sfs ino index) := by
  rw [target, if_pos member, present_of_ne nonzero]

theorem target_of_indirect (member : ino ∈ inos) (nonzero : (dinOf sfs ino).indirect ≠ 0) :
    target sfs inos (.indirect ino) = some (dinOf sfs ino).indirect := by
  rw [target, if_pos member, present_of_ne nonzero]

theorem target_of_super : target sfs inos (.metadata sfsBlknSuper) = some sfsBlknSuper := by
  rw [target, if_pos (show IsMetadata sfs sfsBlknSuper from Or.inl rfl)]

theorem target_of_inode (member : ino ∈ inos) : target sfs inos (.inode ino) = some ino :=
  if_pos member

/-! ## Blocks of a consistent file system -/

namespace Consistent

theorem of_held {reference : Reference} (consistent : Consistent sfs inos)
    (held : target sfs inos reference = some block) (proper : reference ≠ .metadata 0) :
    Addressable sfs block := by
  refine ⟨?_, consistent.exact.inRange reference block held⟩
  rintro rfl
  exact proper (consistent.exact.once reference (.metadata 0) 0 held target_of_super)

theorem used {reference : Reference} (consistent : Consistent sfs inos)
    (held : target sfs inos reference = some block) : sfs.freemap block = false :=
  consistent.exact.used held

/-- A free block can be read and written. -/
theorem of_free (consistent : Consistent sfs inos) (free : sfs.freemap block = true) :
    Addressable sfs block := by
  refine ⟨?_, consistent.exact.freeInRange block free⟩
  rintro rfl
  exact consistent.exact.not_held free (.metadata 0) target_of_super

theorem unread_of_free (consistent : Consistent sfs inos) (free : sfs.freemap block = true) :
    Unread sfs inos block where
  notInode ino member _ same :=
    consistent.exact.not_held free (.inode ino) (same ▸ target_of_inode member)
  notIndirect ino member nonzero same :=
    consistent.exact.not_held free (.indirect ino) (same ▸ target_of_indirect member nonzero)

theorem unread_of_slot (consistent : Consistent sfs inos)
    (held : target sfs inos (.slot ino index) = some block) : Unread sfs inos block where
  notInode other member _ same := by
    have twice := consistent.exact.once _ _ _ held (same ▸ target_of_inode member)
    cases twice
  notIndirect other member nonzero same := by
    have twice := consistent.exact.once _ _ _ held (same ▸ target_of_indirect member nonzero)
    cases twice

/-- The block of an inode in memory. -/
theorem unread_of_loaded (consistent : Consistent sfs inos) (loaded : sfs.inodes ino = some sin) :
    Unread sfs inos ino where
  notInode other _ absent same := by
    rw [same, loaded] at absent
    cases absent
  notIndirect other member nonzero same := by
    have twice := consistent.exact.once _ _ _ (target_of_inode (consistent.known ino sin loaded))
      (same ▸ target_of_indirect member nonzero)
    cases twice

end Consistent

/-! ## Changing one slot -/

/-- What an inode says of its file, the block map apart. -/
structure SameHeader (left right : DiskInode) : Prop where
  size : left.size = right.size
  type : left.type = right.type
  nlinks : left.nlinks = right.nlinks
  blocks : left.blocks = right.blocks

/-- At most the slot at `index` of `ino` differs. The other slots have the same blocks, and these
the same contents. -/
structure OnlySlot (inos : List Nat) (ino index : Nat) (sfs after : SfsFs) : Prop where
  others : ∀ other, other ≠ ino → after.inodes other = sfs.inodes other
  loaded : (after.inodes ino).isSome = (sfs.inodes ino).isSome
  header : ∀ other, other ∈ inos → SameHeader (dinOf after other) (dinOf sfs other)
  slots : ∀ other, other ∈ inos → ∀ place, other ≠ ino ∨ place ≠ index →
    slotAt after other place = slotAt sfs other place
  data : ∀ other, other ∈ inos → ∀ place, other ≠ ino ∨ place ≠ index →
    slotAt sfs other place ≠ 0 →
    after.disk (slotAt sfs other place) = sfs.disk (slotAt sfs other place)

theorem SameHeader.refl (din : DiskInode) : SameHeader din din := ⟨rfl, rfl, rfl, rfl⟩

theorem SameHeader.of_eq {left right : DiskInode} (same : left = right) : SameHeader left right :=
  same ▸ SameHeader.refl left

theorem SameHeader.trans {left middle right : DiskInode} (first : SameHeader left middle)
    (second : SameHeader middle right) : SameHeader left right :=
  ⟨first.size.trans second.size, first.type.trans second.type, first.nlinks.trans second.nlinks,
    first.blocks.trans second.blocks⟩

namespace OnlySlot

theorem trans {middle : SfsFs} (first : OnlySlot inos ino index sfs middle)
    (second : OnlySlot inos ino index middle after) : OnlySlot inos ino index sfs after where
  others other apart := (second.others other apart).trans (first.others other apart)
  loaded := second.loaded.trans first.loaded
  header other member := (second.header other member).trans (first.header other member)
  slots other member place apart :=
    (second.slots other member place apart).trans (first.slots other member place apart)
  data other member place apart nonzero := by
    have same := first.slots other member place apart
    have kept := second.data other member place apart (same ▸ nonzero)
    rw [same] at kept
    exact kept.trans (first.data other member place apart nonzero)

/-- Neither inodes nor disk change. -/
theorem of_same (inodes : after.inodes = sfs.inodes) (disk : after.disk = sfs.disk) :
    OnlySlot inos ino index sfs after where
  others other _ := congrFun inodes other
  loaded := by rw [inodes]
  header other _ := SameHeader.of_eq (dinOf_congr (congrFun inodes other) fun _ => congrFun disk other)
  slots other _ _ _ := by
    unfold slotAt
    rw [dinOf_congr (congrFun inodes other) fun _ => congrFun disk other, disk]
  data _ _ _ _ _ := by rw [disk]

theorem refl : OnlySlot inos ino index sfs sfs := of_same rfl rfl

/-- Writing to a block that no inode and no slot refers to. -/
theorem setBlock {bytes : Bytes} (unread : Unread sfs inos block)
    (unheld : ∀ other, other ∈ inos → ∀ place, slotAt sfs other place ≠ 0 →
      slotAt sfs other place ≠ block) :
    OnlySlot inos ino index sfs (sfs.setBlock block bytes) where
  others _ _ := rfl
  loaded := rfl
  header _ member := SameHeader.of_eq (unread.dinOf member)
  slots _ member _ _ := unread.slotAt member
  data other member place _ nonzero :=
    Function.update_of_ne (unheld other member place nonzero) _ _

/-- Changing a direct block. -/
theorem setDirect (loaded : sfs.inodes ino = some sin) (direct : index < sfsNdirect)
    (changed : sin'.din = { sin.din with direct := Function.update sin.din.direct index block }) :
    OnlySlot inos ino index sfs (sfs.setInode ino sin') ∧
      slotAt (sfs.setInode ino sin') ino index = block := by
  have here : dinOf (sfs.setInode ino sin') ino = sin'.din :=
    dinOf_loaded (Function.update_self _ _ _)
  have elsewhere : ∀ other, other ≠ ino → dinOf (sfs.setInode ino sin') other = dinOf sfs other :=
    fun other apart => dinOf_congr (Function.update_of_ne apart _ _) fun _ => rfl
  constructor
  · exact {
      others := fun other apart => Function.update_of_ne apart _ _
      loaded := by
        rw [show (sfs.setInode ino sin').inodes ino = some sin' from Function.update_self _ _ _,
          loaded]
        rfl
      header := by
        intro other _
        by_cases same : other = ino
        · subst same
          rw [here, dinOf_loaded loaded, changed]
          exact ⟨rfl, rfl, rfl, rfl⟩
        · exact SameHeader.of_eq (elsewhere other same)
      slots := by
        intro other _ place apart
        unfold slotAt
        by_cases same : other = ino
        · subst same
          have otherPlace : place ≠ index := apart.resolve_left fun absurdity => absurdity rfl
          rw [here, dinOf_loaded loaded, changed]
          by_cases isDirect : place < sfsNdirect
          · rw [slotOf_direct isDirect, slotOf_direct isDirect]
            exact Function.update_of_ne otherPlace _ _
          · rw [slotOf, slotOf, if_neg isDirect, if_neg isDirect]
            rfl
        · rw [elsewhere other same]
          rfl
      data := fun _ _ _ _ _ => rfl }
  · rw [slotAt, here, changed, slotOf_direct direct]
    exact Function.update_self _ _ _

/-- Changing an entry of the indirect block. -/
theorem setEntry (distinct : ∀ left right held, target sfs inos left = some held →
      target sfs inos right = some held → left = right)
    (member : ino ∈ inos) (beyond : ¬ index < sfsNdirect) (inside : index < slotCount)
    (nonzero : (dinOf sfs ino).indirect ≠ 0) (fits : block < 2 ^ 32) :
    let written := sfs.setBlock (dinOf sfs ino).indirect
      ((sfs.disk (dinOf sfs ino).indirect).overlay ((index - sfsNdirect) * 4) 4
        (Bytes.ofNumber block))
    OnlySlot inos ino index sfs written ∧ slotAt written ino index = block ∧
      ∀ other, other ∈ inos → dinOf written other = dinOf sfs other := by
  intro written
  have held := target_of_indirect member nonzero
  have sameDin : ∀ other, other ∈ inos → dinOf written other = dinOf sfs other := by
    intro other isMember
    apply dinOf_congr (show written.inodes other = sfs.inodes other from rfl)
    intro _
    apply Function.update_of_ne
    intro same
    have twice := distinct _ _ _ held (same ▸ target_of_inode isMember)
    cases twice
  have ownDisk : written.disk (dinOf sfs ino).indirect =
      (sfs.disk (dinOf sfs ino).indirect).overlay ((index - sfsNdirect) * 4) 4
        (Bytes.ofNumber block) := Function.update_self _ _ _
  refine ⟨?_, ?_, sameDin⟩
  · exact {
      others := fun _ _ => rfl
      loaded := rfl
      header := fun other isMember => SameHeader.of_eq (sameDin other isMember)
      slots := by
        intro other isMember place apart
        unfold slotAt
        rw [sameDin other isMember]
        by_cases same : other = ino
        · subst same
          have otherPlace : place ≠ index := apart.resolve_left fun absurdity => absurdity rfl
          by_cases isDirect : place < sfsNdirect
          · rw [slotOf_direct isDirect, slotOf_direct isDirect]
          · by_cases reached : place < slotCount
            · rw [slotOf_entry isDirect reached nonzero, slotOf_entry isDirect reached nonzero,
                ownDisk]
              apply Bytes.number_overlay_apart
              omega
            · rw [slotOf_empty isDirect (Or.inl (by omega)),
                slotOf_empty isDirect (Or.inl (by omega))]
        · apply slotOf_congr ⟨fun _ _ => rfl, rfl⟩
          intro otherNonzero
          apply Function.update_of_ne
          intro equal
          have twice := distinct _ _ _ held (equal ▸ target_of_indirect isMember otherNonzero)
          exact same (Reference.indirect.inj twice).symm
      data := by
        intro other isMember place _ placeNonzero
        apply Function.update_of_ne
        intro equal
        have twice := distinct _ _ _ held (equal ▸ target_of_slot isMember placeNonzero)
        cases twice }
  · rw [slotAt, sameDin ino member, slotOf_entry beyond inside nonzero, ownDisk]
    exact Bytes.number_overlay_same fits

/-- Giving an inode an indirect block without entries, where it had none. -/
theorem setIndirect (loaded : sfs.inodes ino = some sin) (none : sin.din.indirect = 0)
    (cleared : sfs.disk block = Bytes.zeros)
    (changed : sin'.din = { sin.din with indirect := block }) :
    OnlySlot inos ino index sfs (sfs.setInode ino sin') ∧
      ∀ place, slotAt (sfs.setInode ino sin') ino place = slotAt sfs ino place := by
  have here : dinOf (sfs.setInode ino sin') ino = sin'.din :=
    dinOf_loaded (Function.update_self _ _ _)
  have elsewhere : ∀ other, other ≠ ino → dinOf (sfs.setInode ino sin') other = dinOf sfs other :=
    fun other apart => dinOf_congr (Function.update_of_ne apart _ _) fun _ => rfl
  have sameSlots : ∀ place, slotAt (sfs.setInode ino sin') ino place = slotAt sfs ino place := by
    intro place
    unfold slotAt
    rw [here, dinOf_loaded loaded, changed]
    by_cases isDirect : place < sfsNdirect
    · rw [slotOf_direct isDirect, slotOf_direct isDirect]
    · rw [@slotOf_empty place sfs.disk sin.din isDirect (Or.inr none)]
      by_cases reached : place < slotCount ∧ block ≠ 0
      · rw [slotOf_entry isDirect reached.1 reached.2]
        show entryOf (sfs.disk block) _ = 0
        rw [cleared]
        exact Bytes.number_zeros _ _
      · rw [slotOf, if_neg isDirect, if_neg reached]
  refine ⟨?_, sameSlots⟩
  exact {
    others := fun other apart => Function.update_of_ne apart _ _
    loaded := by
      rw [show (sfs.setInode ino sin').inodes ino = some sin' from Function.update_self _ _ _,
        loaded]
      rfl
    header := by
      intro other _
      by_cases same : other = ino
      · subst same
        rw [here, dinOf_loaded loaded, changed]
        exact ⟨rfl, rfl, rfl, rfl⟩
      · exact SameHeader.of_eq (elsewhere other same)
    slots := by
      intro other _ place _
      by_cases same : other = ino
      · rw [same]
        exact sameSlots place
      · unfold slotAt
        rw [elsewhere other same]
        rfl
    data := fun _ _ _ _ _ => rfl }

end OnlySlot

end UCore.Fs
