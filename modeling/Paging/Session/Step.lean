import Paging.Boot
import Paging.Pool.Lending
import Paging.Session.Outcome
import Paging.Space.Inspect
import Paging.Space.Mapping
import Paging.Table.Step

/-!
# Steps of a session and their answers

A `Step` is one thing that can be done with a machine: booting it, working on the active address
space (`SpaceStep`), borrowing from its frame pool, or touching memory and processor directly. Each
step has an `Answer`.
-/

namespace Paging

/-- What is written through the entry that a lookup found. -/
inductive EntryWrite where
  | clear
  | leaf (pa : PhysicalAddress) (flags : EntryBits)
  deriving DecidableEq

/-- Steps on the active address space. -/
inductive SpaceStep where
  | map (va : VirtualAddress) (pa : PhysicalAddress) (flags : EntryBits)
  | mapSpan (va : VirtualAddress) (pa : PhysicalAddress) (len : UInt32) (flags : EntryBits)
  | unmap (va : VirtualAddress)
  | unmapSpan (va : VirtualAddress) (len : UInt32)
  | releaseLarge (va : VirtualAddress)
  | locate (va : VirtualAddress) (create : Bool) (write : Option EntryWrite)
  | translate (va : VirtualAddress)
  | regionOf (va : VirtualAddress)
  | slotContent (index : Nat)
  | entriesOf (index : Nat)
  /-- The regions of all slots. -/
  | layout
  deriving DecidableEq

inductive Step where
  | boot
  | build
  /-- Installs the directory that was built as number `n`. -/
  | install (n : Nat)
  /-- Makes an address space of the spare root record. -/
  | takeOver
  | setLargePages (b : Bool)
  | status
  | peek (pa : PhysicalAddress)
  | poke (pa : PhysicalAddress) (w : UInt32)
  | invalidate (va : VirtualAddress)
  /-- A step on the page table in the frame of `pa`, past all translation. -/
  | tableAt (pa : PhysicalAddress) (step : TableStep)
  /-- A slot of the directory in the frame of `pa`, past all translation; written first with `bits`
  and then cleared, if so asked. -/
  | slotAt (pa : PhysicalAddress) (index : Nat) (bits : Option DirEntry) (clear : Bool)
  /-- The present entries of the table that the window of a slot shows. -/
  | windowEntries (index : Nat)
  | pool (step : PoolStep)
  | space (step : SpaceStep)
  deriving DecidableEq

/-- What can be seen of processor and root record. -/
structure Status where
  largePages : Bool
  paging : Bool
  root : Option Frame
  /-- Whether the processor has 4 MiB pages; asked through the address space, if there is one. -/
  hasLargePages : Option Bool
  record : Option RootRecord
  deriving DecidableEq

/-- Neighbouring slots, first to last, that have the same region. -/
structure SlotRun where
  first : SlotIndex
  last : SlotIndex
  region : Region
  deriving DecidableEq

inductive Answer where
  | nothing
  | pool (a : PoolAnswer)
  | table (a : TableAnswer)
  | built (d : BuiltDirectory) (number : Nat)
  | installed (previous : Option ActiveDirectory) (record : RootRecord)
  | status (s : Status)
  | word (w : UInt32)
  | slot (e : DirEntry)
  | entry (e : EntryBits)
  | entries (es : List (EntryIndex × EntryBits))
  | translation (pa : PhysicalAddress) (flags : EntryBits)
  | region (r : Region)
  | content (c : SlotContent)
  | layout (runs : List SlotRun)
  deriving DecidableEq

/-- The regions of neighbouring slots, joined into runs. -/
def SlotRun.ofRegions : List (SlotIndex × Region) → List SlotRun
  | [] => []
  | (i, r) :: rest =>
    match SlotRun.ofRegions rest with
    | run :: runs =>
      if run.region = r then { run with first := i } :: runs else ⟨i, i, r⟩ :: run :: runs
    | [] => [⟨i, i, r⟩]

end Paging
