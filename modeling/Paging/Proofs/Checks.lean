import Paging.Boot
import Paging.Space.Mapping
import Paging.Proofs.Word

/-!
# No check fails

The operations check what they reckon with: the numbers that they put into fields, the indices that they
cut out of addresses, and their sums and products. None of these checks fails. Each checked figure is the
plain one, as an equation between actions, so that an operation may be followed as if it did not check. The
one condition is on the number of a page in a span, whose distance in bytes has 64 bits; a span has at most a
page more than the address space (`pagesInSpan_le`).
-/

namespace Paging

theorem addBelow_of_lt {size a b : Nat} (h : a + b < size) : addBelow size a b = .ok (a + b) := if_pos h

theorem mulBelow_of_lt {size a b : Nat} (h : a * b < size) : mulBelow size a b = .ok (a * b) := if_pos h

theorem Address.add_of_lt {k : AddressKind} {a : Address k} {n : UInt32}
    (h : a.val.toNat + n.toNat < UInt32.size) : a.add n = .ok ⟨a.val + n⟩ := by
  rw [add, add?, if_pos h]

theorem checkIndex_of_lt {n : Nat} (h : n < 1024) : checkIndex n = .ok ⟨n, h⟩ := dif_pos h

namespace Machine

theorem index_of_lt {n : Nat} (h : n < 1024) : index n = pure ⟨n, h⟩ := by
  rw [index, checkIndex_of_lt h]
  rfl

theorem slotOf_eq (va : VirtualAddress) : slotOf va = pure va.slotIndex := by
  rw [slotOf, ← va.val_slotIndex, index_of_lt va.slotIndex.isLt]

theorem entryOf_eq (va : VirtualAddress) : entryOf va = pure va.entryIndex := by
  rw [entryOf, ← va.val_entryIndex, index_of_lt va.entryIndex.isLt]

theorem viewOf_eq (i : SlotIndex) : viewOf i = pure (tableView i) := by
  have hi := i.isLt
  have hbytes : i.val * PageSize.small.bytes < UInt32.size := by
    simp only [PageSize.bytes, UInt32.size]
    omega
  have hsum : windowBase.val.toNat + (UInt32.ofNat (i.val * PageSize.small.bytes)).toNat < UInt32.size := by
    have hbase : windowBase.val.toNat = 0xFFC00000 := rfl
    rw [UInt32.toNat_ofNat_of_lt' hbytes, hbase]
    simp only [PageSize.bytes, UInt32.size]
    omega
  rw [viewOf, mulBelow_of_lt hbytes]
  show (ofExcept (windowBase.add _) : MachineM VirtualAddress) = _
  rw [Address.add_of_lt hsum]
  rfl

theorem table_eq {i : SlotIndex} (hi : i ≠ selfMapSlot) : table i = window (tableView i) := by
  rw [table, if_neg hi, viewOf_eq, pure_bind]

theorem pageAfter_eq {k : AddressKind} (p : Page k .small) {n : Nat} (hn : n ≤ PageSize.small.pageCount) :
    pageAfter p n = pure (p.advance? n) := by
  have hbytes : n * PageSize.small.bytes < UInt64.size := by
    simp only [PageSize.bytes, PageSize.pageCount, UInt64.size] at hn ⊢
    omega
  rw [pageAfter, mulBelow_of_lt hbytes]
  show (if n * PageSize.small.bytes < UInt32.size then _ else _) = _
  split
  · rename_i h
    rw [p.advance?_eq_add? h]
  · rename_i h
    rw [p.advance?_eq_none (Nat.le_of_not_lt h)]

end Machine

/-- A span has at most a page more than the address space. -/
theorem Space.pagesInSpan_le (va : VirtualAddress) (len : UInt32) :
    pagesInSpan va len ≤ PageSize.small.pageCount + 1 := by
  have ho := (va.offset .small).bytes_lt
  have hl := len.toNat_lt
  simp only [PageSize.bytes] at ho
  simp only [pagesInSpan, PageSize.pageCount]
  omega

theorem Space.countPages_eq (va : VirtualAddress) (len : UInt32) :
    countPages va len = pure (pagesInSpan va len) := by
  have ho := (va.offset .small).bytes_lt
  have hl := len.toNat_lt
  have hbytes : (va.offset .small).bytes + len.toNat < UInt64.size := by
    simp only [PageSize.bytes, UInt64.size] at ho ⊢
    omega
  rw [countPages, addBelow_of_lt hbytes]
  rfl

/-! ## Words -/

namespace Machine

theorem fitted_leaf (f : Frame) (flags : EntryBits) :
    fitted EntryBits.frameField (EntryBits.leaf? f flags) = pure (.leaf f flags) := by
  rw [EntryBits.leaf?_eq]
  rfl

theorem fitted_link (flags : TableLink) (f : Frame) :
    fitted TableLink.frameField (DirEntry.link? flags f) = pure (.link flags f) := by
  rw [DirEntry.link?_eq]
  rfl

theorem fitted_large (flags : LargeLeaf) (p : Page .physical .large) :
    fitted LargeLeaf.pageField (DirEntry.large? flags p) = pure (.large flags p) := by
  rw [DirEntry.large?_eq]
  rfl

theorem fillFrame_eq (f : Frame) {word : Fin 1024 → MachineM UInt32} {g : Fin 1024 → UInt32}
    (h : ∀ i, word i = pure (g i)) : fillFrame f word = writeFrame f (wordsOfFn g) := by
  rw [fillFrame, funext h, List.mapM_pure, pure_bind, frameOfList_map]

end Machine

end Paging
