import Paging.Proofs.Word

/-!
# A directory that names itself

If the last slot of a directory links the directory, a walk through that slot reads the directory twice,
first as a directory and then as a table. `window_shows` says what the processor then sees, in any memory:
the window of slot `i` shows the frame in the upper bits of directory word `i`, whatever else the word says,
and nothing if the word is not present. So the window of a slot with a table shows the table, and that of
the last slot the directory. The windows are 1024 pages of their own, and together the addresses of the
last slot (`WindowPages`).
-/

namespace Paging

/-- The address `o` bytes into the window of slot `i`. -/
def windowByte (i : SlotIndex) (o : Offset .small) : VirtualAddress := ((tableView i).page .small).join o

/-- Where the windows lie. -/
structure WindowPages : Prop where
  /-- The sum is taken in 32 bits and does not wrap. -/
  value : ∀ i, (tableView i).val.toNat = windowBase.val.toNat + i.val * PageSize.small.bytes
  byte : ∀ i o, (windowByte i o).val.toNat = (tableView i).val.toNat + o.bytes
  aligned : ∀ i, (tableView i).isAligned .small
  injective : Function.Injective tableView
  split : ∀ i, (tableView i).slotIndex = selfMapSlot ∧ (tableView i).entryIndex = i ∧
    ((tableView i).offset .small).bytes = 0
  directory : directoryView = tableView selfMapSlot
  inWindow : ∀ va, inWindow va ↔ va.slotIndex = selfMapSlot
  windows : ∀ va : VirtualAddress, va.slotIndex = selfMapSlot ↔ ∃ i o, va = windowByte i o

namespace Ram

/-- The last word of `root` is present, links a table, and the table is `root`. -/
def MapsItself (r : Ram) (root : Frame) : Prop :=
  ∃ w, r.word? root selfMapSlot = some w ∧ w &&& 0x01 ≠ 0 ∧ w &&& 0x80 = 0 ∧ Walk.frameOf w = root

/-- Where a walk of `va` arrives, if it does, with the directory in `root`. -/
def arrives? (r : Ram) (root : Frame) (va : VirtualAddress) : Option PhysicalAddress :=
  ((r.walk root va).target? va).map Prod.fst

/-- What the window of slot `i` shows. -/
structure WindowShows (r : Ram) (root : Frame) (i : SlotIndex) : Prop where
  /-- Nothing but the word of the slot decides, and of that the lowest bit whether there is anything, and
  the upper 20 bits what. -/
  word : ∃ w, r.word? root i = some w ∧ ∀ o, r.arrives? root (windowByte i o) =
    if w &&& 0x01 = 0 then none else some ⟨(w &&& 0xFFFFF000) + UInt32.ofNat o.bytes⟩
  table : ∀ w f l, r.word? root i = some w → (DirEntry.mk w).content? = some (.table f l) →
    ∀ o, r.arrives? root (windowByte i o) = some (f.join o)

end Ram

/-! ## Where the windows lie -/

@[simp] theorem slotIndex_windowByte (i : SlotIndex) (o : Offset .small) :
    (windowByte i o).slotIndex = selfMapSlot := by
  rw [← Address.slotIndex_base_page, windowByte, Page.page_join, Address.slotIndex_base_page,
    slotIndex_tableView]

@[simp] theorem entryIndex_windowByte (i : SlotIndex) (o : Offset .small) :
    (windowByte i o).entryIndex = i := by
  rw [← Address.entryIndex_base_page, windowByte, Page.page_join, Address.entryIndex_base_page,
    entryIndex_tableView]

@[simp] theorem offset_windowByte (i : SlotIndex) (o : Offset .small) :
    (windowByte i o).offset .small = o := Page.offset_join _ o

theorem isAligned_tableView (i : SlotIndex) : (tableView i).isAligned .small := by
  rw [Address.isAligned_iff, toNat_tableView]
  omega

theorem toNat_windowByte (i : SlotIndex) (o : Offset .small) :
    (windowByte i o).val.toNat = (tableView i).val.toNat + o.bytes := by
  have haligned := Address.isAligned_iff.1 (isAligned_tableView i)
  rw [windowByte, Page.toNat_join]
  simp only [Address.page, PageSize.bytes]
  omega

theorem injective_tableView : Function.Injective tableView := by
  intro i j hij
  rw [← entryIndex_tableView i, hij, entryIndex_tableView]

/-- The addresses of the last slot are the bytes of the windows. -/
theorem eq_windowByte {va : VirtualAddress} (h : va.slotIndex = selfMapSlot) :
    va = windowByte va.entryIndex (va.offset .small) := by
  have hpage : va.page .small = (tableView va.entryIndex).page .small := by
    rw [Address.page_eq_iff, slotIndex_tableView, entryIndex_tableView]
    exact ⟨h, rfl⟩
  rw [windowByte, ← hpage, Page.join_page_offset]

theorem windowPages : WindowPages where
  value := toNat_tableView
  byte := toNat_windowByte
  aligned := isAligned_tableView
  injective := injective_tableView
  split i := ⟨slotIndex_tableView i, entryIndex_tableView i, Address.isAligned_iff.1 (isAligned_tableView i)⟩
  directory := tableView_selfMapSlot.symm
  inWindow := inWindow_iff
  windows va := by
    constructor
    · intro h
      exact ⟨va.entryIndex, va.offset .small, eq_windowByte h⟩
    · rintro ⟨i, o, rfl⟩
      exact slotIndex_windowByte i o

/-! ## What the windows show -/

namespace Walk

/-- The address of the frame in a word is the upper 20 bits of the word. -/
theorem base_frameOf (w : UInt32) : (frameOf w).base.val = w &&& 0xFFFFF000 :=
  congrArg Address.val (Address.base_page (s := .small) (Address.mk (k := .physical) w))

theorem join_frameOf (w : UInt32) (o : Offset .small) :
    (frameOf w).join o = ⟨(w &&& 0xFFFFF000) + UInt32.ofNat o.bytes⟩ := by
  have hf := (frameOf w).number_lt
  have ho := o.bytes_lt
  have hbase := (frameOf w).toNat_base
  simp only [PageSize.pageCount, PageSize.bytes] at hf ho hbase
  apply Address.ext
  apply UInt32.toNat_inj.1
  rw [← base_frameOf, Page.toNat_join, UInt32.toNat_add, UInt32.toNat_ofNat', hbase]
  simp only [PageSize.bytes]
  omega

end Walk

namespace Ram

variable {r : Ram} {root : Frame} {i : SlotIndex} {w : UInt32}

/-- A frame of which one word is memory is memory as a whole. -/
theorem exists_word? {i : Fin 1024} (h : r.word? root i = some w) (j : Fin 1024) :
    ∃ w', r.word? root j = some w' := by
  obtain ⟨ws, hws, -⟩ := Option.map_eq_some_iff.1 h
  exact ⟨ws[j], by rw [word?, hws]; rfl⟩

/-- The second word of a walk through the last slot is the directory word of the window. -/
theorem arrives?_windowByte (h : r.MapsItself root) (hw : r.word? root i = some w) (o : Offset .small) :
    r.arrives? root (windowByte i o) = if w &&& 0x01 = 0 then none else some ((Walk.frameOf w).join o) := by
  obtain ⟨link, hlink, hp, hs, hroot⟩ := h
  rw [arrives?, walk, slotIndex_windowByte, hlink]
  simp only [hp, hs, hroot, entryIndex_windowByte, hw, ne_eq, not_true, if_false]
  by_cases h0 : w &&& 0x01 = 0
  · simp only [h0, if_true]
    rfl
  · simp only [h0, if_false, Walk.target?, offset_windowByte, Option.map_some]

theorem windowShows (h : r.MapsItself root) (i : SlotIndex) : r.WindowShows root i where
  word := by
    have ⟨_, hlink, _⟩ := h
    obtain ⟨w, hw⟩ := exists_word? hlink i
    refine ⟨w, hw, ?_⟩
    intro o
    rw [arrives?_windowByte h hw, Walk.join_frameOf]
  table w f l hw hc o := by
    rw [DirEntry.content?_eq] at hc
    rw [arrives?_windowByte h hw]
    split at hc
    · cases hc
    · rename_i hp
      split at hc <;> cases hc
      rw [if_neg hp]

/-- **The windows show the tables.** In any memory, if a directory names itself in its last slot, then the
processor sees the directory word of a slot through the window of the slot, and the directory through the
last of them. -/
theorem window_shows (h : r.MapsItself root) : WindowPages ∧ (∀ i, r.WindowShows root i) ∧
    ∀ o, r.arrives? root (windowByte selfMapSlot o) = some (root.join o) := by
  refine ⟨windowPages, windowShows h, ?_⟩
  intro o
  have ⟨_, hw, hp, _, hroot⟩ := h
  rw [arrives?_windowByte h hw, if_neg hp, hroot]

/-- One frame of untouched memory, in which nothing but the last word was written. -/
def selfMapped : Ram := (fresh (Page.ofNumber 16) 1).putWord (Page.ofNumber 16) selfMapSlot 0x10003

theorem window_shows_selfMapped : selfMapped.MapsItself (Page.ofNumber 16) ∧ WindowPages ∧
    (∀ i, selfMapped.WindowShows (Page.ofNumber 16) i) ∧
    ∀ o, selfMapped.arrives? (Page.ofNumber 16) (windowByte selfMapSlot o) =
      some (Page.join (Page.ofNumber 16) o) := by
  have h : selfMapped.MapsItself (Page.ofNumber 16) := by
    refine ⟨0x10003, ?_, by decide, by decide, by decide⟩
    rw [selfMapped, word?_putWord (by decide), if_pos ⟨rfl, rfl⟩]
  exact ⟨h, window_shows h⟩

end Ram

end Paging
