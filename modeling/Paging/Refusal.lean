import Paging.Address.Text

/-!
# Refusals

What the public operations answer when they decline. Each refusal is a cause; `name`, `message` and
`describe` give its short name, the sentence for a user and the form that shows its data.
-/

namespace Paging

/-- Why a frame pool cannot be set up. -/
inductive PoolRefusal where
  /-- More frames were asked for than the bitmap has bits. -/
  | capacityExceeded (requested capacity : Nat)
  /-- The frames would run past the top of physical memory. -/
  | windowOverflow (base : PhysicalAddress)
  deriving DecidableEq

namespace PoolRefusal

def name : PoolRefusal → String
  | capacityExceeded .. => "CapacityExceeded"
  | windowOverflow _ => "WindowOverflow"

def message : PoolRefusal → String
  | capacityExceeded r c => r.repr ++ " frames exceed the bitmap capacity of " ++ c.repr
  | windowOverflow b => "frame window starting at " ++ b.display ++ " runs past 4 GiB"

def describe : PoolRefusal → String
  | capacityExceeded r c =>
    "CapacityExceeded \x7b requested: " ++ r.repr ++ ", capacity: " ++ c.repr ++ " \x7d"
  | windowOverflow b => "WindowOverflow(" ++ b.describe ++ ")"

end PoolRefusal

/-- Why a 4 KiB mapping, or the release of a 4 MiB page, is declined. -/
inductive MapRefusal where
  /-- A page table is needed and the pool is empty. -/
  | noFrame
  /-- The address lies where such a change is not allowed. -/
  | notMappable (va : VirtualAddress)
  deriving DecidableEq

namespace MapRefusal

def name : MapRefusal → String
  | noFrame => "AllocationExhausted"
  | notMappable _ => "InvalidTranslationRequest"

def message : MapRefusal → String
  | noFrame => "no frame left for a new page table"
  | notMappable va => va.display ++ " cannot take a 4 KiB mapping"

def describe : MapRefusal → String
  | noFrame => "AllocationExhausted"
  | notMappable va => "InvalidTranslationRequest(" ++ va.describe ++ ")"

end MapRefusal

/-- Why a directory is not installed. -/
inductive InstallRefusal where
  /-- The processor has no 4 MiB pages. -/
  | noLargePages
  deriving DecidableEq

/-- Why the boot address space is not set up. -/
inductive BootRefusal where
  /-- Two frames are needed and the pool has fewer. -/
  | noFrame
  | install (e : InstallRefusal)
  deriving DecidableEq

namespace InstallRefusal

def name : InstallRefusal → String
  | noLargePages => "UnsupportedHardwareFeature"

def message : InstallRefusal → String
  | noLargePages => "the CPU does not support 4 MiB pages (CPUID.01H:EDX.PSE)"

end InstallRefusal

namespace BootRefusal

def name : BootRefusal → String
  | noFrame => "AllocationExhausted"
  | install e => e.name

def message : BootRefusal → String
  | noFrame => "no frame left for the boot page directory or its first table"
  | install e => e.message

def describe : BootRefusal → String
  | noFrame => "AllocationExhausted"
  | install e => "Activation(" ++ e.name ++ ")"

end BootRefusal

end Paging
