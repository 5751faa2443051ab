import Paging.Space.Lookup

/-!
# Mapping and unmapping

`map` and `unmap` change one 4 KiB page, `mapSpan` and `unmapSpan` all pages that a span of bytes
touches, and `releaseLarge` clears a slot that maps 4 MiB. Whatever was present before a change is
dropped from what the processor remembers, one page at a time.
-/

namespace Paging

namespace Space

/-- Maps the page of `va` to the frame of `pa`, in place of what it was mapped to before. -/
def map (va : VirtualAddress) (pa : PhysicalAddress) (flags : EntryBits) :
    MachineM (Except MapRefusal Unit) := do
  match ← locate va true with
  | .error e => pure (.error e)
  | .ok none => pure (.error (.notMappable va))
  | .ok (some place) =>
    place.write (← Machine.fitted EntryBits.frameField (EntryBits.leaf? (pa.page .small) flags))
    emit (.mapped (va.page .small) (pa.page .small) flags.mappingFlags)
    Machine.invalidate (va.page .small)
    pure (.ok ())

/-- Removes the mapping of the page of `va`. Pages without one, 4 MiB pages and the self-map window
are left alone; the frame that was mapped is not given back. -/
def unmap (va : VirtualAddress) : MachineM Unit := do
  match ← locate va false with
  | .error e => emit (.unmapIgnored va e)
  | .ok none => pure ()
  | .ok (some place) =>
    if (← place.read).present then
      place.write .absent
      emit (.unmapped (va.page .small))
      Machine.invalidate (va.page .small)

/-- Clears the slot of `va`, which must map 4 MiB or be absent already. Afterwards the region can be
given a table. -/
def releaseLarge (va : VirtualAddress) : MachineM (Except MapRefusal Unit) := do
  let i ← Machine.slotOf va
  if i = selfMapSlot then
    emit .windowKept
    pure (.error (.notMappable va))
  else
    let dir ← Machine.directory
    match (← readSlot dir i).content? with
    | none => pure (.ok ())
    | some (.table ..) =>
      emit (.tableKept i)
      pure (.error (.notMappable va))
    | some (.large page _) =>
      writeSlot dir i .absent
      emit (.largeReleased page i)
      Machine.invalidate ((SlotIndex.base i).page .small)
      pure (.ok ())

/-! ## Spans -/

/-- Number of pages from the page of `va` to the end of the `len` bytes at `va`. -/
def pagesInSpan (va : VirtualAddress) (len : UInt32) : Nat :=
  ((va.offset .small).bytes + len.toNat + 4095) / 4096

/-- `pagesInSpan`, of a sum in 64 bits. -/
def countPages (va : VirtualAddress) (len : UInt32) : MachineM Nat := do
  let bytes ← ofExcept (addBelow UInt64.size (va.offset .small).bytes len.toNat)
  return (bytes + 4095) / 4096

/-- Maps `n` pages, the `i`-th after `first` to the `i`-th frame after `frame`. Stops at the first
refusal, and refuses `va` where page or frame would lie past the top of the address space. -/
def mapPages (va : VirtualAddress) (first : Page .virtual .small) (frame : Frame) (flags : EntryBits) :
    (i n : Nat) → MachineM (Except MapRefusal Unit)
  | _, 0 => pure (.ok ())
  | i, n + 1 => do
    match ← Machine.pageAfter first i, ← Machine.pageAfter frame i with
    | some p, some f =>
      match ← map p.base f.base flags with
      | .ok () => mapPages va first frame flags (i + 1) n
      | .error e => pure (.error e)
    | _, _ => pure (.error (.notMappable va))

/-- Maps every page that the `len` bytes at `va` touch, to consecutive frames from that of `pa` on.
Pages mapped before a refusal stay mapped. -/
def mapSpan (va : VirtualAddress) (pa : PhysicalAddress) (len : UInt32) (flags : EntryBits) :
    MachineM (Except MapRefusal Unit) := do
  mapPages va (va.page .small) (pa.page .small) flags 0 (← countPages va len)

/-- Unmaps `n` pages from the `i`-th after `first` on, as far as the address space goes. -/
def unmapPages (first : Page .virtual .small) : (i n : Nat) → MachineM Unit
  | _, 0 => pure ()
  | i, n + 1 => do
    match ← Machine.pageAfter first i with
    | some p =>
      unmap p.base
      unmapPages first (i + 1) n
    | none => pure ()

/-- Unmaps every page that the `len` bytes at `va` touch. -/
def unmapSpan (va : VirtualAddress) (len : UInt32) : MachineM Unit := do
  unmapPages (va.page .small) 0 (← countPages va len)

end Space

end Paging
