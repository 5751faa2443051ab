import Paging.Address.Basic

/-!
# Geometry of the address space

A directory of 1024 slots covers 4 GiB, 4 MiB a slot; a table of 1024 entries covers one slot, 4 KiB
an entry. The topmost slot is the self-map: it names the directory itself, which makes every table
visible in the topmost 4 MiB.

    0x00000000  identity, 4 KiB pages        slot 0
    0x00400000  identity, 4 MiB pages        slots 1 … 1022
    0xFFC00000  the page tables              slot 1023
    0xFFFFF000  the page directory itself
-/

namespace Paging

/-- Entries in a page table, and slots in a page directory. -/
def entryCount : Nat := 1024

/-- A slot of the page directory, selected by the top ten bits of a virtual address. -/
abbrev SlotIndex := Fin 1024

/-- An entry of a page table, selected by the middle ten bits of a virtual address. -/
abbrev EntryIndex := Fin 1024

/-- The slot that names the directory itself. -/
def selfMapSlot : SlotIndex := 1023

/-- Lowest address of the self-map window, where the table of slot 0 is seen. -/
def windowBase : VirtualAddress := ⟨0xFFC00000⟩

/-- Where the directory itself is seen: the last page of the window. -/
def directoryView : VirtualAddress := ⟨0xFFFFF000⟩

/-- Extent of the identity map that is made of 4 KiB pages. -/
def smallIdentityBytes : Nat := PageSize.large.bytes

/-- First and last slot of the identity map that is made of 4 MiB pages. -/
def largeIdentitySlots : SlotIndex × SlotIndex := (1, 1022)

namespace Address

/-- The directory slot that covers `va`. -/
def slotIndex (va : VirtualAddress) : SlotIndex :=
  ⟨va.val.toNat / 4194304, by have := va.val.toNat_lt; omega⟩

/-- The entry for `va` in the table of its slot. -/
def entryIndex (va : VirtualAddress) : EntryIndex :=
  ⟨va.val.toNat / 4096 % 1024, Nat.mod_lt _ (by decide)⟩

end Address

theorem SlotIndex.lt_pageCount (i : SlotIndex) : i.val < PageSize.large.pageCount := i.isLt

/-- The 4 MiB region that slot `i` covers. -/
def SlotIndex.region (i : SlotIndex) : Page .virtual .large := ⟨i.val, i.lt_pageCount⟩

/-- Lowest address of the region of slot `i`. -/
def SlotIndex.base (i : SlotIndex) : VirtualAddress := (SlotIndex.region i).base

/-- The page through which the table of slot `i` is seen. -/
def tableView (i : SlotIndex) : VirtualAddress := ⟨windowBase.val + UInt32.ofNat (i.val * 4096)⟩

/-- Whether `va` lies in the 4 MiB of the self-map. -/
def inWindow (va : VirtualAddress) : Bool := windowBase ≤ va

end Paging
