import Paging.Machine.Basic

/-!
# Finding the entry of an address

`locate` finds the page-table entry for a virtual address in the active address space, and can make
the table on the way. It answers with the place of the entry in memory, through which the entry is
then read and written.
-/

namespace Paging

/-- Where a page-table entry lies: which frame holds the table, and which entry it is. -/
structure EntryPlace where
  table : Frame
  index : EntryIndex
  deriving DecidableEq

namespace EntryPlace

def read (p : EntryPlace) : MachineM EntryBits := return ⟨← Machine.readWord p.table p.index⟩

def write (p : EntryPlace) (e : EntryBits) : MachineM Unit :=
  Machine.writeWord p.table p.index e.bits

end EntryPlace

namespace Space

/-- Slot `i` of the directory in `dir`. -/
def readSlot (dir : Frame) (i : SlotIndex) : MachineM DirEntry :=
  return ⟨← Machine.readWord dir i⟩

def writeSlot (dir : Frame) (i : SlotIndex) (e : DirEntry) : MachineM Unit :=
  Machine.writeWord dir i e.bits

/-- Gives the absent slot `i` of the directory in `dir` an empty table. What the processor remembers
of the table's window dates from before the link, so it is dropped before the window is used. -/
def createTable (dir : Frame) (i : SlotIndex) : MachineM (Except MapRefusal Unit) := do
  match ← Machine.takeFrame with
  | none =>
    emit (.noTableFrame i)
    pure (.error .noFrame)
  | some f =>
    writeSlot dir i (← Machine.fitted TableLink.frameField (DirEntry.link? .userRw f))
    Machine.invalidate ((← Machine.viewOf i).page .small)
    Machine.writeFrame (← Machine.table i) PageTable.empty.words
    emit (.tableCreated f i)
    pure (.ok ())

/-- Whether the slot `i` of `va` has a table. A 4 MiB page is refused; an absent slot gets a table if
`create` says so. -/
def ensureTable (va : VirtualAddress) (i : SlotIndex) (create : Bool) : MachineM (Except MapRefusal Bool) := do
  let dir ← Machine.directory
  match (← readSlot dir i).content? with
  | some (.table ..) => pure (.ok true)
  | some (.large page _) =>
    emit (.lookupInLargePage va page)
    pure (.error (.notMappable va))
  | none =>
    if create then
      match ← createTable dir i with
      | .ok () => pure (.ok true)
      | .error e => pure (.error e)
    else pure (.ok false)

/-- The place of the entry for `va`. There is none in an absent slot, unless `create` asks for a
table; the self-map window and 4 MiB pages are refused. -/
def locate (va : VirtualAddress) (create : Bool) :
    MachineM (Except MapRefusal (Option EntryPlace)) := do
  let i ← Machine.slotOf va
  let k ← Machine.entryOf va
  if i = selfMapSlot then
    emit (.lookupInWindow va)
    pure (.error (.notMappable va))
  else
    match ← ensureTable va i create with
    | .error e => pure (.error e)
    | .ok false => pure (.ok none)
    | .ok true => pure (.ok (some ⟨← Machine.table i, k⟩))

end Space

end Paging
