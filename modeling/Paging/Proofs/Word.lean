import Mathlib.Data.Nat.Bitwise
import Paging.Machine.Walk
import Paging.Proofs.Geometry

/-!
# Reading words back

What was written into a directory slot or a page-table entry is what is read from it. A slot that
links a table reads as that table (`content?_link`), one that maps 4 MiB as that page
(`content?_large`), and an entry gives its frame and its twelve flag bits (`frame_leaf`,
`flags_leaf`). The processor takes words apart by division and the library by bit fields;
`frameOf_eq` and its neighbours say that they see the same.
-/

namespace Paging

namespace Field

/-- A field of one bit is that bit of the word. -/
theorem test_eq_testBit {f : Field} (hf : f.width = 1) (w : UInt32) :
    f.test w = w.toNat.testBit f.low := by
  have h := testBit_get f w 0
  have hlt : f.get w < 2 := by simpa [size, hf] using get_lt f w
  simp only [hf, Nat.lt_add_one, decide_true, Bool.true_and, Nat.add_zero] at h
  rw [test, ← h]
  have hbit : f.get w = 0 ∨ f.get w = 1 := by omega
  rcases hbit with h0 | h1
  · rw [h0]; rfl
  · rw [h1]; rfl

theorem test_of_get {f : Field} {w : UInt32} {b : Bool} (h : f.get w = b.toNat) : f.test w = b := by
  rw [test, h]
  cases b <;> rfl

theorem test_put {f : Field} (hf : f.width = 1) (w : UInt32) (b : Bool) :
    f.test (f.put w b.toNat) = b :=
  test_of_get (get_put f w (by rw [size, hf]; cases b <;> decide))

theorem test_put_of_disjoint {f g : Field} (h : Disjoint f g) (w : UInt32) (v : Nat) :
    g.test (f.put w v) = g.test w := by
  rw [test, test, get_put_of_disjoint h]

theorem get_eq_toNat_test {f : Field} (hf : f.width = 1) (w : UInt32) : f.get w = (f.test w).toNat := by
  have hlt : f.get w < 2 := by simpa [size, hf] using get_lt f w
  have hbit : f.get w = 0 ∨ f.get w = 1 := by omega
  rcases hbit with h | h <;> simp [test, h]

/-- Putting a bit that is there changes nothing. -/
theorem put_test {f : Field} (hf : f.width = 1) {w : UInt32} {b : Bool} (h : f.test w = b) :
    f.put w b.toNat = w := by
  rw [← h, ← get_eq_toNat_test hf, put_get]

/-- Clearing a field is masking it out. -/
theorem put_zero (f : Field) (w : UInt32) : f.put w 0 = w &&& ~~~f.mask := by
  have hzero : UInt32.ofNat ((0 % f.size) <<< f.low) = 0 := by rw [Nat.zero_mod, Nat.zero_shiftLeft]; rfl
  rw [put, hzero, UInt32.or_zero]

theorem put?_of_lt {f : Field} {v : Nat} (h : v < f.size) (w : UInt32) :
    f.put? w v = some (f.put w v) := if_pos h

end Field

/-! ## The words as the processor reads them -/

theorem and_bit_eq_zero_iff (w : UInt32) {m : UInt32} {k : Nat} (hm : m.toNat = 2 ^ k) :
    w &&& m = 0 ↔ w.toNat.testBit k = false := by
  rw [← UInt32.toNat_inj, UInt32.toNat_and, hm, Nat.and_two_pow]
  cases w.toNat.testBit k <;> simp

theorem DirEntry.present_iff (e : DirEntry) : e.present ↔ e.bits &&& 0x01 ≠ 0 := by
  rw [DirEntry.present, Field.test_eq_testBit rfl, ne_eq, and_bit_eq_zero_iff e.bits (k := 0) rfl]
  simp [TableLink.presentField]

theorem DirEntry.pageSize_iff (e : DirEntry) : e.pageSize ↔ e.bits &&& 0x80 ≠ 0 := by
  rw [DirEntry.pageSize, Field.test_eq_testBit rfl, ne_eq, and_bit_eq_zero_iff e.bits (k := 7) rfl]
  simp [LargeLeaf.pageSizeField]

theorem EntryBits.present_iff (e : EntryBits) : e.present ↔ e.bits &&& 0x01 ≠ 0 := by
  rw [EntryBits.present, Field.test_eq_testBit rfl, ne_eq, and_bit_eq_zero_iff e.bits (k := 0) rfl]
  simp [EntryBits.presentField]

namespace Walk

theorem frameOf_eq (w : UInt32) : frameOf w = (TableLink.mk w).frame := by
  have h := w.toNat_lt
  apply Page.ext
  simp only [frameOf, TableLink.frame, Field.get, Field.size, Nat.one_shiftLeft, TableLink.frameField,
    Nat.shiftRight_eq_div_pow]
  omega

theorem frameOf_eq_entry (w : UInt32) : frameOf w = (EntryBits.mk w).frame := frameOf_eq w

theorem pageOf_eq (w : UInt32) : pageOf w = (LargeLeaf.mk w).page := by
  have h := w.toNat_lt
  apply Page.ext
  simp only [pageOf, LargeLeaf.page, Field.get, Field.size, Nat.one_shiftLeft, LargeLeaf.pageField,
    Nat.shiftRight_eq_div_pow]
  omega

end Walk

/-! ## Pages as the upper bits of a word -/

namespace PageSize

theorem bytes_eq_two_pow (s : PageSize) : s.bytes = 2 ^ s.shift := by cases s <;> rfl

theorem bytes_lt (s : PageSize) : s.bytes < UInt32.size := by cases s <;> decide

theorem toNat_shift (s : PageSize) : (UInt32.ofNat s.shift).toNat % 32 = s.shift := by cases s <;> rfl

theorem toNat_shiftRight (s : PageSize) (w : UInt32) :
    (w >>> UInt32.ofNat s.shift).toNat = w.toNat / s.bytes := by
  rw [UInt32.toNat_shiftRight, toNat_shift, Nat.shiftRight_eq_div_pow, bytes_eq_two_pow]

theorem toNat_offsetMask (s : PageSize) : s.offsetMask.toNat = 2 ^ s.shift - 1 := by cases s <;> rfl

theorem toNat_and_offsetMask (s : PageSize) (w : UInt32) : (w &&& s.offsetMask).toNat = w.toNat % s.bytes := by
  rw [UInt32.toNat_and, toNat_offsetMask, Nat.and_two_pow_sub_one_eq_mod, bytes_eq_two_pow]

end PageSize

namespace Page

variable {k : AddressKind} {s : PageSize}

/-- The bits of a page number are the upper bits of the page's address. -/
theorem testBit_base (p : Page k s) (j : Nat) :
    p.base.val.toNat.testBit j = (decide (s.shift ≤ j) && p.number.testBit (j - s.shift)) := by
  rw [toNat_base, PageSize.bytes_eq_two_pow, Nat.testBit_mul_two_pow]

theorem testBit_base_small (p : Page k .small) (j : Nat) :
    p.base.val.toNat.testBit j = (decide (12 ≤ j) && p.number.testBit (j - 12)) := testBit_base p j

theorem testBit_base_large (p : Page k .large) (j : Nat) :
    p.base.val.toNat.testBit j = (decide (22 ≤ j) && p.number.testBit (j - 22)) := testBit_base p j

/-- Bits below the page boundary are added to the address of the page. -/
theorem toNat_base_or (p : Page k s) {c : UInt32} (hc : c.toNat < s.bytes) :
    (p.base.val ||| c).toNat = p.number * s.bytes + c.toNat := by
  rw [PageSize.bytes_eq_two_pow] at hc
  rw [UInt32.toNat_or, toNat_base, Nat.mul_comm, PageSize.bytes_eq_two_pow,
    Nat.two_pow_add_eq_or_of_lt hc]

/-- A page and an offset are joined bit by bit. -/
theorem val_join (p : Page k s) (o : Offset s) : (p.join o).val = p.base.val ||| UInt32.ofNat o.bytes := by
  have ho : (UInt32.ofNat o.bytes).toNat = o.bytes :=
    UInt32.toNat_ofNat_of_lt' (Nat.lt_trans o.bytes_lt s.bytes_lt)
  have hlt : (UInt32.ofNat o.bytes).toNat < s.bytes := by
    rw [ho]
    exact o.bytes_lt
  apply UInt32.toNat_inj.1
  rw [toNat_join, toNat_base_or p hlt, ho]

/-- Pages of either size start on a 4 KiB boundary: the flags below are what was added. -/
theorem base_or_and (p : Page k s) {c : UInt32} (hc : c.toNat < 4096) : (p.base.val ||| c) &&& 0xFFF = c := by
  have hsize : 4096 ≤ s.bytes := by cases s <;> decide
  apply UInt32.toNat_inj.1
  rw [UInt32.toNat_and, toNat_base_or p (Nat.lt_of_lt_of_le hc hsize)]
  show (p.number * s.bytes + c.toNat) &&& (2 ^ 12 - 1) = c.toNat
  rw [Nat.and_two_pow_sub_one_eq_mod]
  cases s <;> simp only [PageSize.bytes] <;> omega

/-- A page further up starts at the sum of the address and the bytes in between, if that is an address. -/
theorem advance?_eq_add? (p : Page k s) {n : Nat} (hn : n * s.bytes < UInt32.size) :
    p.advance? n = (p.base.add? (UInt32.ofNat (n * s.bytes))).map (·.page s) := by
  have hbytes : (UInt32.ofNat (n * s.bytes)).toNat = n * s.bytes := UInt32.toNat_ofNat_of_lt' hn
  have hsum : p.base.val.toNat + n * s.bytes = (p.number + n) * s.bytes := by rw [toNat_base, Nat.add_mul]
  have hfits : (p.number + n) * s.bytes < UInt32.size ↔ p.number + n < s.pageCount := by
    rw [← PageSize.bytes_mul_pageCount s, Nat.mul_comm s.bytes]
    exact Nat.mul_lt_mul_right s.bytes_pos
  rw [advance?, Address.add?, hbytes, hsum]
  by_cases h : p.number + n < s.pageCount
  · have hnext : (p.base.val + UInt32.ofNat (n * s.bytes)).toNat = (p.number + n) * s.bytes := by
      rw [UInt32.toNat_add, hbytes, hsum, Nat.mod_eq_of_lt (hfits.2 h)]
    rw [dif_pos h, if_pos (hfits.2 h), Option.map_some]
    apply congrArg some
    apply Page.ext
    show p.number + n = (p.base.val + UInt32.ofNat (n * s.bytes)).toNat / s.bytes
    rw [hnext, Nat.mul_div_cancel _ s.bytes_pos]
  · rw [dif_neg h, if_neg (mt hfits.1 h), Option.map_none]

theorem advance?_eq_none (p : Page k s) {n : Nat} (hn : UInt32.size ≤ n * s.bytes) : p.advance? n = none := by
  rw [← PageSize.bytes_mul_pageCount s, Nat.mul_comm] at hn
  have hcount := Nat.le_of_mul_le_mul_right hn s.bytes_pos
  rw [advance?, dif_neg (by omega)]

end Page

namespace Address

variable {k : AddressKind} {s : PageSize} {a : Address k}

theorem isAligned_iff_dvd : a.isAligned s ↔ s.bytes ∣ a.val.toNat := by
  rw [isAligned, beq_iff_eq, ← UInt32.toNat_inj, PageSize.toNat_and_offsetMask]
  exact Nat.dvd_iff_mod_eq_zero.symm

theorem isAligned_iff : a.isAligned .small ↔ a.val.toNat % 4096 = 0 :=
  isAligned_iff_dvd.trans Nat.dvd_iff_mod_eq_zero

theorem base_page_of_isAligned (h : a.isAligned s) : (a.page s).base = a := by
  apply Address.ext
  apply UInt32.toNat_inj.1
  rw [Page.toNat_base]
  exact Nat.div_mul_cancel (isAligned_iff_dvd.1 h)

/-- The page of an address starts where the bits below the page boundary are clear. -/
theorem base_page (a : Address k) : (a.page s).base = a.roundDown s := by
  apply Address.ext
  apply Field.eq_of_testBit
  intro j hj
  rw [Page.testBit_base, roundDown, UInt32.toNat_and, Nat.testBit_and, Field.testBit_not _ hj,
    PageSize.toNat_offsetMask, Nat.testBit_two_pow_sub_one]
  by_cases hs : s.shift ≤ j
  · have hbit := Nat.testBit_div_two_pow (n := s.shift) a.val.toNat (j - s.shift)
    rw [Nat.sub_add_cancel hs, ← PageSize.bytes_eq_two_pow] at hbit
    simp [hs, page, hbit]
  · simp [hs, Nat.lt_of_not_le hs]

theorem val_slotIndex (va : VirtualAddress) : va.slotIndex.val = (va.val >>> 22).toUInt16.toNat := by
  have hlt := va.val.toNat_lt
  have hslot : (va.val >>> 22).toNat = va.val.toNat / 4194304 := PageSize.toNat_shiftRight .large va.val
  rw [UInt32.toNat_toUInt16, hslot]
  simp only [slotIndex]
  omega

theorem toNat_entryIndex (va : VirtualAddress) : (va.val >>> 12 &&& 0x3FF).toNat = va.entryIndex.val := by
  have hentry : (va.val >>> 12).toNat = va.val.toNat / 4096 := PageSize.toNat_shiftRight .small va.val
  rw [UInt32.toNat_and, hentry]
  exact Nat.and_two_pow_sub_one_eq_mod _ 10

theorem val_entryIndex (va : VirtualAddress) :
    va.entryIndex.val = (va.val >>> 12 &&& 0x3FF).toUInt16.toNat := by
  have hlt := va.entryIndex.isLt
  rw [UInt32.toNat_toUInt16, toNat_entryIndex]
  omega

end Address

theorem Page.isAligned_base {k : AddressKind} {s : PageSize} (p : Page k s) : p.base.isAligned s := by
  rw [Address.isAligned_iff_dvd, toNat_base]
  exact Nat.dvd_mul_left _ _

/-! ## Directory slots -/

namespace DirEntry

@[simp] theorem content?_absent : absent.content? = none := by decide

@[simp] theorem content?_link (flags : TableLink) (f : Frame) :
    (link flags f).content? = some (.table f ⟨(link flags f).bits⟩) := by
  have hp : (link flags f).present = true := by
    rw [present, link, Field.test_put_of_disjoint (by decide), TableLink.withFrame,
      Field.test_put_of_disjoint (by decide), TableLink.withPresent]
    exact Field.test_put rfl flags.bits true
  have hs : (link flags f).pageSize = false := Field.test_put rfl _ false
  have hf : (TableLink.mk (link flags f).bits).frame = f := by
    apply Page.ext
    simp only [TableLink.frame, link]
    rw [Field.get_put_of_disjoint (by decide)]
    exact Field.get_put TableLink.frameField _ f.number_lt
  rw [content?, if_pos hp, if_neg (by simp [hs]), hf]

@[simp] theorem content?_large (flags : LargeLeaf) (p : Page .physical .large) :
    (large flags p).content? = some (.large p ⟨(large flags p).bits⟩) := by
  have hp : (large flags p).present = true := by
    rw [present, large, LargeLeaf.withPage, Field.test_put_of_disjoint (by decide),
      Field.test_put_of_disjoint (by decide), LargeLeaf.withPresent]
    exact Field.test_put rfl flags.bits true
  have hs : (large flags p).pageSize = true := Field.test_put rfl _ true
  have hf : (LargeLeaf.mk (large flags p).bits).page = p := by
    apply Page.ext
    simp only [LargeLeaf.page, large, LargeLeaf.withPage]
    rw [Field.get_put_of_disjoint (by decide)]
    exact Field.get_put LargeLeaf.pageField _ p.number_lt
  rw [content?, if_pos hp, if_pos hs, hf]

/-- A present slot is one of its two readings; which one, and of what, is in its bits. -/
theorem content?_eq (e : DirEntry) : e.content? =
    if e.bits &&& 0x01 = 0 then none
    else if e.bits &&& 0x80 ≠ 0 then some (.large (Walk.pageOf e.bits) ⟨e.bits⟩)
    else some (.table (Walk.frameOf e.bits) ⟨e.bits⟩) := by
  rw [content?, Walk.pageOf_eq, Walk.frameOf_eq]
  by_cases h1 : e.bits &&& 0x01 = 0
  · rw [if_pos h1, if_neg (by rw [present_iff]; simpa using h1)]
  · rw [if_neg h1, if_pos ((present_iff e).2 h1)]
    by_cases h2 : e.bits &&& 0x80 = 0
    · rw [if_neg (by rw [pageSize_iff]; simpa using h2), if_neg (by simpa using h2)]
    · rw [if_pos ((pageSize_iff e).2 h2), if_pos h2]

/-- A link that was read is the word of its slot. -/
theorem bits_of_content?_eq_table {e : DirEntry} {f : Frame} {l : TableLink}
    (h : e.content? = some (.table f l)) : l.bits = e.bits := by
  rw [content?_eq] at h
  split at h
  · cases h
  · split at h <;> cases h
    rfl

/-- A link in figures: the flags that were asked for without bit 7, and the address of the table. -/
theorem bits_link (flags : TableLink) (f : Frame) :
    (link flags f).bits = flags.bits &&& 0xF7F ||| 0x1 ||| f.base.val := by
  apply Field.eq_of_testBit
  intro j hj
  have hmask : (0xF7F : UInt32).toNat.testBit j = decide (j < 12 ∧ j ≠ 7) := by decide +revert
  have hone : (0x1 : UInt32).toNat.testBit j = decide (j = 0) := by decide +revert
  rw [UInt32.toNat_or, UInt32.toNat_or, UInt32.toNat_and, Nat.testBit_or, Nat.testBit_or, Nat.testBit_and,
    Page.testBit_base_small, hmask, hone]
  simp only [link, TableLink.withFrame, TableLink.withPresent, Field.testBit_put,
    LargeLeaf.pageSizeField, TableLink.frameField, TableLink.presentField]
  by_cases h7 : j = 7
  · subst h7; simp
  · by_cases h12 : 12 ≤ j
    · rw [if_neg (by omega), if_pos (by omega)]
      simp [h12, show ¬j < 12 by omega, show j ≠ 0 by omega]
    · by_cases h0 : j = 0
      · subst h0; simp
      · rw [if_neg (by omega), if_neg (by omega), if_neg (by omega)]
        simp [h12, h7, h0, show j < 12 by omega]

theorem bits_link_supervisorRw (f : Frame) : (link .supervisorRw f).bits = f.base.val ||| 0x3 := by
  have h : TableLink.supervisorRw.bits &&& 0xF7F ||| 0x1 = 0x3 := by decide
  rw [bits_link, h, UInt32.or_comm]

theorem bits_link_userRw (f : Frame) : (link .userRw f).bits = f.base.val ||| 0x7 := by
  have h : TableLink.userRw.bits &&& 0xF7F ||| 0x1 = 0x7 := by decide
  rw [bits_link, h, UInt32.or_comm]

/-- A 4 MiB page in figures: the flags that were asked for, of a present page with bit 7, and the
address of the page. -/
theorem bits_large (flags : LargeLeaf) (p : Page .physical .large) :
    (large flags p).bits = flags.bits &&& 0x003FFFFF ||| 0x81 ||| p.base.val := by
  apply Field.eq_of_testBit
  intro j hj
  have hmask : (0x003FFFFF : UInt32).toNat.testBit j = decide (j < 22) := by decide +revert
  have hset : (0x81 : UInt32).toNat.testBit j = decide (j = 0 ∨ j = 7) := by decide +revert
  rw [UInt32.toNat_or, UInt32.toNat_or, UInt32.toNat_and, Nat.testBit_or, Nat.testBit_or, Nat.testBit_and,
    Page.testBit_base_large, hmask, hset]
  simp only [large, LargeLeaf.withPage, LargeLeaf.withPresent, Field.testBit_put,
    LargeLeaf.pageSizeField, LargeLeaf.pageField, LargeLeaf.presentField]
  by_cases h7 : j = 7
  · subst h7; simp
  · by_cases h22 : 22 ≤ j
    · rw [if_neg (by omega), if_pos (by omega)]
      simp [h22, h7, show ¬j < 22 by omega, show j ≠ 0 by omega]
    · by_cases h0 : j = 0
      · subst h0; simp
      · rw [if_neg (by omega), if_neg (by omega), if_neg (by omega)]
        simp [h22, h7, h0, show j < 22 by omega]

/-- A 4 MiB page of boot in figures. -/
theorem bits_large_supervisorRw (p : Page .physical .large) :
    (large .supervisorRw p).bits = p.base.val ||| 0x83 := by
  have h : LargeLeaf.supervisorRw.bits &&& 0x003FFFFF ||| 0x81 = 0x83 := by decide
  rw [bits_large, h, UInt32.or_comm]

theorem flags_large (p : Page .physical .large) : (large .supervisorRw p).bits &&& 0xFFF = 0x83 := by
  rw [bits_large_supervisorRw]
  exact Page.base_or_and p (by decide)

/-! No number is too large for its field. -/

theorem link?_eq (flags : TableLink) (f : Frame) : link? flags f = some (link flags f) := by
  have hmask : LargeLeaf.pageSizeField.mask = 0x80 := by decide
  have hframe (w : UInt32) := Field.put?_of_lt (f := TableLink.frameField) f.number_lt w
  simp only [link?, Field.put?_of_lt (show 1 < TableLink.presentField.size by decide), hframe,
    Option.bind_eq_bind, Option.bind_some, Option.pure_def]
  rw [link, Field.put_zero, hmask]
  rfl

theorem large?_eq (flags : LargeLeaf) (p : Page .physical .large) : large? flags p = some (large flags p) := by
  have hlt := p.number_lt
  have hcut : (UInt16.ofNat p.number).toNat = p.number := by
    rw [UInt16.toNat_ofNat', Nat.mod_eq_of_lt]
    simp only [PageSize.pageCount] at hlt
    omega
  have hpage (w : UInt32) := Field.put?_of_lt (f := LargeLeaf.pageField) hlt w
  simp only [large?, hcut, Field.put?_of_lt (show 1 < LargeLeaf.presentField.size by decide), hpage,
    Field.put?_of_lt (show 1 < LargeLeaf.pageSizeField.size by decide), Option.bind_eq_bind,
    Option.bind_some, Option.pure_def]
  rfl

end DirEntry

/-! ## Flags below the address of a frame -/

namespace Page

theorem frameOf_base_or (f : Frame) {c : UInt32} (hc : c.toNat < 4096) :
    Walk.frameOf (f.base.val ||| c) = f := by
  have h : (f.base.val ||| c).toNat = f.number * 4096 + c.toNat := toNat_base_or f hc
  apply Page.ext
  simp only [Walk.frameOf]
  omega

/-- The processor joins a frame and the offset in it by masks. -/
theorem join_offset_eq (f : Frame) (va : VirtualAddress) :
    f.join (va.offset .small) = ⟨f.base.val ||| va.val &&& 0xFFF⟩ := by
  have hoff : va.val &&& 0xFFF = UInt32.ofNat (va.offset .small).bytes := by
    have hand : (va.val &&& 0xFFF).toNat = (va.offset .small).bytes := PageSize.toNat_and_offsetMask .small va.val
    rw [← hand, UInt32.ofNat_toNat]
  apply Address.ext
  rw [val_join, hoff]

end Page

/-! ## Page-table entries -/

namespace EntryBits

@[simp] theorem present_absent : absent.present = false := by decide

@[simp] theorem present_leaf (f : Frame) (flags : EntryBits) : (leaf f flags).present = true := by
  rw [present, leaf, withFrame, Field.test_put_of_disjoint (by decide)]
  exact Field.test_put rfl flags.flags.bits true

@[simp] theorem frame_leaf (f : Frame) (flags : EntryBits) : (leaf f flags).frame = f :=
  Page.ext (Field.get_put frameField _ f.number_lt)

theorem leaf?_eq (f : Frame) (flags : EntryBits) : leaf? f flags = some (leaf f flags) := by
  have hframe (w : UInt32) := Field.put?_of_lt (f := frameField) f.number_lt w
  simp only [leaf?, Field.put?_of_lt (show 1 < presentField.size by decide), hframe, Option.bind_eq_bind,
    Option.bind_some, Option.pure_def]
  rfl

/-- A mapping in figures: the low twelve bits that were asked for, with `present`, and the address of the
frame. -/
theorem bits_leaf (f : Frame) (flags : EntryBits) :
    (leaf f flags).bits = f.base.val ||| (flags.bits &&& 0xFFF ||| 1) := by
  apply Field.eq_of_testBit
  intro j hj
  have hmask : (0xFFF : UInt32).toNat.testBit j = decide (j < 12) := by decide +revert
  have hone : (1 : UInt32).toNat.testBit j = decide (j = 0) := by decide +revert
  rw [UInt32.toNat_or, UInt32.toNat_or, UInt32.toNat_and, Nat.testBit_or, Nat.testBit_or, Nat.testBit_and,
    Page.testBit_base_small, hmask, hone]
  simp only [leaf, withFrame, mappingFlags, withPresent, EntryBits.flags, flagBits, Field.testBit_put,
    presentField, frameField, UInt32.toNat_and, Nat.testBit_and, hmask]
  by_cases h12 : 12 ≤ j
  · rw [if_pos (by omega)]
    simp [h12, show ¬j < 12 by omega, show j ≠ 0 by omega]
  · by_cases h0 : j = 0
    · subst h0; simp
    · rw [if_neg (by omega), if_neg (by omega)]
      simp [h12, h0, show j < 12 by omega]

/-- The low twelve bits of a mapping are the low twelve bits that were asked for, with `present`. -/
theorem flags_leaf (f : Frame) (flags : EntryBits) :
    (leaf f flags).flags.bits = flags.bits &&& 0xFFF ||| 1 := by
  have hlow : (flags.bits &&& 0xFFF).toNat < 2 ^ 12 := by
    rw [UInt32.toNat_and]
    exact Nat.and_lt_two_pow _ (by decide)
  have hlt : (flags.bits &&& 0xFFF ||| 1).toNat < 2 ^ 12 := by
    rw [UInt32.toNat_or]
    exact Nat.or_lt_two_pow hlow (by decide)
  rw [EntryBits.flags, bits_leaf]
  exact Page.base_or_and f hlt

end EntryBits

end Paging
