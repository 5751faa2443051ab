import Paging.Region
import Paging.Space.Lookup

/-!
# Looking at the address space

What an address translates to, what a region is, and what a directory slot or a table holds. Nothing
here changes memory, the pool or a register; only the cached translations of the windows may grow.
-/

namespace Paging

namespace Space

/-- Slot `i` of the active directory. -/
def slot (i : SlotIndex) : MachineM DirEntry := do readSlot (← Machine.directory) i

/-- The physical address behind `va`, with the flags of the entry that maps it. Through the self-map
slot, the directory is read as a table. -/
def translate (va : VirtualAddress) : MachineM (Option (PhysicalAddress × EntryBits)) := do
  let i ← Machine.slotOf va
  let k ← Machine.entryOf va
  match (← slot i).content? with
  | none => pure none
  | some (.large page leaf) =>
    pure (some (page.join (va.offset .large), (EntryBits.mk leaf.bits).flags))
  | some (.table ..) =>
    let table ← Machine.window (← Machine.viewOf i)
    match (EntryBits.mk (← Machine.readWord table k)).mapping? with
    | none => pure none
    | some (frame, e) => pure (some (frame.join (va.offset .small), e.flags))

/-- What the region around `va` is. -/
def regionOf (va : VirtualAddress) : MachineM Region := do
  let i ← Machine.slotOf va
  return .ofSlot i (← slot i)

/-- What slot `i` holds, unless it is absent. -/
def slotContent (i : SlotIndex) : MachineM (Option SlotContent) := return (← slot i).content?

/-- The present entries of the table of slot `i`, in ascending order. Only a slot that links a table
has any; the self-map slot does not count as one. -/
def entriesOf (i : SlotIndex) : MachineM (Option (List (EntryIndex × EntryBits))) := do
  if i = selfMapSlot then pure none
  else
    match ← slotContent i with
    | some (.table ..) =>
      let words ← Machine.readFrame (← Machine.table i)
      return some (PageTable.mk words).mappings
    | _ => pure none

end Space

end Paging
