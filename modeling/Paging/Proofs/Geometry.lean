import Paging.Geometry

/-!
# Slots, entries and windows

An address is a slot, an entry of its table and an offset; its page is the first two. The window of
slot `i` is the page that the self-map slot and entry `i` select.
-/

namespace Paging

namespace Page

variable {k : AddressKind} {s : PageSize}

theorem toNat_base (p : Page k s) : p.base.val.toNat = p.number * s.bytes := by
  have h := p.number_lt
  rw [base, UInt32.toNat_ofNat', Nat.mod_eq_of_lt]
  cases s <;> simp only [PageSize.bytes, PageSize.pageCount] at * <;> omega

theorem toNat_wordAddress (f : Page k .small) (j : Fin 1024) :
    (f.wordAddress j).val.toNat = f.base.val.toNat + 4 * j.val := by
  have hf := f.number_lt
  have hj := j.isLt
  simp only [PageSize.pageCount] at hf
  rw [toNat_base, wordAddress, UInt32.toNat_ofNat', Nat.mod_eq_of_lt (by omega)]
  rfl

theorem toNat_join (p : Page k s) (o : Offset s) :
    (p.join o).val.toNat = p.number * s.bytes + o.bytes := by
  have hp := p.number_lt
  have ho := o.bytes_lt
  rw [join, UInt32.toNat_ofNat', Nat.mod_eq_of_lt]
  cases s <;> simp only [PageSize.bytes, PageSize.pageCount] at * <;> omega

@[simp] theorem page_base (p : Page k s) : p.base.page s = p := by
  apply Page.ext
  simp only [Address.page, toNat_base]
  exact Nat.mul_div_cancel _ s.bytes_pos

@[simp] theorem page_join (p : Page k s) (o : Offset s) : (p.join o).page s = p := by
  apply Page.ext
  simp only [Address.page, toNat_join]
  rw [Nat.mul_comm, Nat.mul_add_div s.bytes_pos, Nat.div_eq_of_lt o.bytes_lt, Nat.add_zero]

@[simp] theorem offset_join (p : Page k s) (o : Offset s) : (p.join o).offset s = o := by
  apply Offset.ext
  simp only [Address.offset, toNat_join]
  rw [Nat.mul_comm, Nat.mul_add_mod, Nat.mod_eq_of_lt o.bytes_lt]

@[simp] theorem join_page_offset (a : Address k) : (a.page s).join (a.offset s) = a := by
  apply Address.ext
  apply UInt32.toNat_inj.1
  rw [toNat_join]
  exact Nat.div_add_mod' a.val.toNat s.bytes

end Page

namespace Address

theorem region_page (va : VirtualAddress) : (va.page .small).region = va.slotIndex.region := by
  apply Page.ext
  simp only [Page.region, page, slotIndex, SlotIndex.region, PageSize.bytes]
  omega

theorem place_page (va : VirtualAddress) : (va.page .small).place = va.entryIndex := rfl

/-- The page of an address is given by its slot and its entry. -/
theorem number_page (va : VirtualAddress) :
    (va.page .small).number = va.slotIndex.val * 1024 + va.entryIndex.val := by
  simp only [page, slotIndex, entryIndex, PageSize.bytes]
  omega

theorem page_eq_iff (va vb : VirtualAddress) : va.page .small = vb.page .small ↔
    va.slotIndex = vb.slotIndex ∧ va.entryIndex = vb.entryIndex := by
  have ha := va.entryIndex.isLt
  have hb := vb.entryIndex.isLt
  rw [Page.ext_iff, number_page, number_page, Fin.ext_iff, Fin.ext_iff]
  omega

end Address

theorem Page.slotIndex_base (p : Page .virtual .small) :
    p.base.slotIndex = ⟨p.region.number, p.region.number_lt⟩ := by
  have h := congrArg Page.number (Address.region_page p.base)
  rw [page_base] at h
  exact Fin.ext h.symm

theorem Page.entryIndex_base (p : Page .virtual .small) : p.base.entryIndex = p.place := by
  rw [← Address.place_page, page_base]

@[simp] theorem Address.slotIndex_base_page (va : VirtualAddress) :
    (va.page .small).base.slotIndex = va.slotIndex := by
  rw [Page.slotIndex_base]
  exact Fin.ext (congrArg Page.number (region_page va))

@[simp] theorem Address.entryIndex_base_page (va : VirtualAddress) :
    (va.page .small).base.entryIndex = va.entryIndex := by
  rw [Page.entryIndex_base, place_page]

@[simp] theorem Address.slotIndex_base_region (va : VirtualAddress) :
    (va.page .large).base.slotIndex = va.slotIndex := by
  apply Fin.ext
  simp only [slotIndex, Page.toNat_base, page, PageSize.bytes]
  omega

/-! ## Slots -/

@[simp] theorem slotIndex_base (i : SlotIndex) : (SlotIndex.base i).slotIndex = i := by
  apply Fin.ext
  simp only [Address.slotIndex, SlotIndex.base, Page.toNat_base, SlotIndex.region, PageSize.bytes]
  omega

theorem region_page_base (i : SlotIndex) :
    ((SlotIndex.base i).page .small).region = SlotIndex.region i := by
  rw [Address.region_page, slotIndex_base]

theorem Page.slotIndex_base_eq_iff (r : Page .virtual .large) (i : SlotIndex) :
    r.base.slotIndex = i ↔ r = i.region := by
  have h : r.base.slotIndex.val = r.number := by
    simp only [Address.slotIndex, toNat_base, PageSize.bytes]
    omega
  rw [Fin.ext_iff, h, Page.ext_iff]
  rfl

/-! ## Windows -/

theorem toNat_tableView (i : SlotIndex) : (tableView i).val.toNat = 0xFFC00000 + i.val * 4096 := by
  have h := i.isLt
  have hbase : (0xFFC00000 : UInt32).toNat = 0xFFC00000 := rfl
  have hpage : i.val * 4096 < 2 ^ 32 := by omega
  have hsum : 0xFFC00000 + i.val * 4096 < 2 ^ 32 := by omega
  simp only [tableView, windowBase, UInt32.toNat_add, UInt32.toNat_ofNat', hbase]
  rw [Nat.mod_eq_of_lt hpage, Nat.mod_eq_of_lt hsum]

@[simp] theorem slotIndex_tableView (i : SlotIndex) : (tableView i).slotIndex = selfMapSlot := by
  have h := i.isLt
  apply Fin.ext
  simp only [Address.slotIndex, toNat_tableView, selfMapSlot]
  show _ = 1023
  omega

@[simp] theorem entryIndex_tableView (i : SlotIndex) : (tableView i).entryIndex = i := by
  have h := i.isLt
  apply Fin.ext
  simp only [Address.entryIndex, toNat_tableView]
  omega

theorem tableView_selfMapSlot : tableView selfMapSlot = directoryView := by decide

theorem inWindow_iff (va : VirtualAddress) : inWindow va ↔ va.slotIndex = selfMapSlot := by
  have h := va.val.toNat_lt
  have hle : inWindow va ↔ 0xFFC00000 ≤ va.val.toNat := by
    simp only [inWindow, decide_eq_true_eq]
    exact UInt32.le_iff_toNat_le
  rw [hle, Fin.ext_iff]
  show _ ↔ va.val.toNat / 4194304 = 1023
  omega

/-- A window page is the window of the slot at its place. -/
theorem page_eq_tableView {p : Page .virtual .small} (h : p.base.slotIndex = selfMapSlot) :
    p = (tableView p.place).page .small := by
  rw [← Page.page_base p, Address.page_eq_iff, Page.page_base, slotIndex_tableView,
    entryIndex_tableView, Page.entryIndex_base]
  exact ⟨h, rfl⟩

/-- The other pages of the window show other slots. -/
theorem entryIndex_ne_of_ne_tableView {p : Page .virtual .small} {i : SlotIndex}
    (hp : p ≠ (tableView i).page .small) (hs : p.base.slotIndex = selfMapSlot) : p.base.entryIndex ≠ i := by
  rintro rfl
  rw [Page.entryIndex_base] at hp
  exact hp (page_eq_tableView hs)

end Paging
