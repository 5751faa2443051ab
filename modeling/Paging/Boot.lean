import Paging.Region
import Paging.Root
import Paging.Machine.Basic

/-!
# Boot

`assembleDirectory` takes two frames and fills them with the first page directory and the one table it
needs; physical memory is written directly, since nothing is translated yet. `boot` does so and
installs the result. If anything is missing, the frames go back and nothing else has changed.
-/

namespace Paging

/-- Entry `i` of the identity map, which maps frame `i`. -/
def identityEntry (i : EntryIndex) : MachineM EntryBits :=
  let f := Page.part ⟨0, PageSize.large.pageCount_pos⟩ i
  Machine.fitted EntryBits.frameField (EntryBits.leaf? f .supervisorRw)

/-- Slot `i` of the directory in `root`, with the identity map in `table`. -/
def bootSlot (root table : Frame) (i : SlotIndex) : MachineM DirEntry :=
  match bootPlan i with
  | .identitySmall => Machine.fitted TableLink.frameField (DirEntry.link? .supervisorRw table)
  | .identityLarge =>
    Machine.fitted LargeLeaf.pageField (DirEntry.large? .supervisorRw ⟨i.val, i.lt_pageCount⟩)
  | .selfMap => Machine.fitted TableLink.frameField (DirEntry.link? .supervisorRw root)

/-- Builds the boot directory in two frames of the pool. If there is only one, it is given back. -/
def assembleDirectory : MachineM (Except BootRefusal BuiltDirectory) := do
  match ← Machine.takeFrame with
  | none =>
    emit .noDirectoryFrame
    pure (.error .noFrame)
  | some root =>
    match ← Machine.takeFrame with
    | none =>
      emit .noBootTableFrame
      Machine.returnFrame root
      pure (.error .noFrame)
    | some table =>
      Machine.fillFrame table fun i => return (← identityEntry i).bits
      Machine.fillFrame root fun i => return (← bootSlot root table i).bits
      emit (.directoryBuilt root table)
      pure (.ok ⟨root⟩)

/-- Builds the boot address space and turns paging on. A processor without 4 MiB pages is refused
before any frame is taken. -/
def boot : MachineM (Except BootRefusal RootRecord) := do
  if ← MonadProcessor.hasLargePages then
    emit .bootStarted
    match ← assembleDirectory with
    | .error e => pure (.error e)
    | .ok built =>
      match ← RootRecord.install {} built with
      | (.error e, _) => pure (.error (.install e))
      | (.ok _, record) =>
        emit .bootDone
        pure (.ok record)
  else
    emit .bootRefused
    pure (.error (.install .noLargePages))

end Paging
