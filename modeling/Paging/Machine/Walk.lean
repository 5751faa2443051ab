import Paging.Machine.Ram

/-!
# The walk of the processor

`Ram.walk` translates a virtual address as the processor does when nothing is cached: it reads the
directory slot, and unless that maps 4 MiB itself, the entry of the linked table. It looks at the
raw words alone. `Walk.target?` is the physical address that comes out, with the flag bits of the
word that ended the walk.
-/

namespace Paging

/-- How a walk ends. -/
inductive Walk where
  | slotAbsent
  | large (slot : UInt32)
  | entryAbsent (slot : UInt32)
  | small (slot entry : UInt32)
  /-- A word that the walk needs is not in memory. -/
  | busError (at_ : PhysicalAddress)
  deriving DecidableEq

namespace Walk

/-- The frame in the upper 20 bits of a word. -/
def frameOf (w : UInt32) : Frame :=
  ⟨w.toNat / 4096, by have := w.toNat_lt; simp only [PageSize.pageCount]; omega⟩

/-- The 4 MiB page in the upper ten bits of a word. -/
def pageOf (w : UInt32) : Page .physical .large :=
  ⟨w.toNat / 4194304, by have := w.toNat_lt; simp only [PageSize.pageCount]; omega⟩

end Walk

/-- The walk of `va` through the directory in `root`. -/
def Ram.walk (r : Ram) (root : Frame) (va : VirtualAddress) : Walk :=
  match r.word? root va.slotIndex with
  | none => .busError (root.wordAddress va.slotIndex)
  | some slot =>
    if slot &&& 0x01 = 0 then .slotAbsent
    else if slot &&& 0x80 ≠ 0 then .large slot
    else
      match r.word? (Walk.frameOf slot) va.entryIndex with
      | none => .busError ((Walk.frameOf slot).wordAddress va.entryIndex)
      | some entry => if entry &&& 0x01 = 0 then .entryAbsent slot else .small slot entry

/-- Where a walk of `va` arrives, with the flag bits of the last word. -/
def Walk.target? (va : VirtualAddress) : Walk → Option (PhysicalAddress × UInt32)
  | large slot => some ((pageOf slot).join (va.offset .large), slot &&& 0xFFF)
  | small _ entry => some ((frameOf entry).join (va.offset .small), entry &&& 0xFFF)
  | slotAbsent | entryAbsent _ | busError _ => none

end Paging
