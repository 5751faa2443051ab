import Paging.Fault
import Paging.Word.Fields
import Paging.Word.Layout

/-!
# Control registers and processor features

The words through which paging is switched on: `CR0` holds the paging bit, `CR3` the frame of the
directory, `CR4` the mode of the walk, and the feature word says whether 4 MiB pages exist. Only the
bits that paging needs are named; all others are padding.
-/

namespace Paging

/-- `CR0`: turns translation on. -/
structure Cr0 where
  bits : UInt32
  deriving DecidableEq

namespace Cr0

def layout : Layout where
  name := "Cr0"
  members := [⟨"protected_mode", protectedMode, true⟩, ⟨"write_protect", writeProtect, true⟩,
    ⟨"paging", paging, true⟩]

/-- The processor accepts the paging bit only in protected mode. -/
def allowsPaging (c : Cr0) : Bool := protectedMode.test c.bits

end Cr0

/-- `CR3`: the frame of the page directory and how accesses to it are cached. -/
structure Cr3 where
  bits : UInt32
  deriving DecidableEq

namespace Cr3

def layout : Layout where
  name := "Cr3"
  members := [⟨"reserved0", reservedLow, true⟩, ⟨"pwt", writeThrough, true⟩,
    ⟨"pcd", cacheDisable, true⟩, ⟨"reserved1", reservedHigh, true⟩,
    ⟨"directory_base_4k", directoryFrame, false⟩]

/-- The frame of the directory. -/
def directory (c : Cr3) : Frame := ⟨directoryFrame.get c.bits, directoryFrame.get_lt c.bits⟩

/-- The register for a directory at `a`, reserved bits clear. A directory fills one frame, so an
address inside a frame is a fault. -/
def ofDirectory (a : PhysicalAddress) (pwt pcd : Bool) : Except Fault Cr3 :=
  if a.isAligned .small then
    .ok ⟨directoryFrame.put (cacheDisable.put (writeThrough.put 0 pwt.toNat) pcd.toNat)
      (a.page .small).number⟩
  else .error .directoryMisaligned

end Cr3

/-- `CR4`: the shape of the walk. Two levels with 4 MiB pages need `PSE` set and `PAE` clear. -/
structure Cr4 where
  bits : UInt32
  deriving DecidableEq

namespace Cr4

def layout : Layout where
  name := "Cr4"
  members := [⟨"pse", pageSizeExtension, true⟩, ⟨"pae", addressExtension, true⟩,
    ⟨"pge", globalPages, true⟩]

/-- The register with 4 MiB pages on and three-level walks off. -/
def forLargePages (c : Cr4) : Cr4 := ⟨addressExtension.put (pageSizeExtension.put c.bits 1) 0⟩

def usesLargePages (c : Cr4) : Bool :=
  pageSizeExtension.test c.bits && !addressExtension.test c.bits

end Cr4

/-- The feature flags that the processor reports under `featureLeaf`. -/
structure Features where
  bits : UInt32
  deriving DecidableEq

namespace Features

/-- The number under which the processor is asked for its feature flags. -/
def featureLeaf : Nat := 1

def layout : Layout where
  name := "Leaf1Edx"
  members := [⟨"fpu", fpu, true⟩, ⟨"vme", virtualMode, true⟩, ⟨"de", debugging, true⟩,
    ⟨"pse", pageSizeExtension, true⟩, ⟨"tsc", timeStampCounter, true⟩,
    ⟨"msr", modelRegisters, true⟩, ⟨"pae", addressExtension, true⟩, ⟨"mce", machineCheck, true⟩,
    ⟨"cx8", compareExchange8, true⟩, ⟨"apic", interruptController, true⟩,
    ⟨"pge", globalPages, true⟩, ⟨"pat", attributeTable, true⟩, ⟨"pse36", pageSizeExtension36, true⟩]

def hasLargePages (f : Features) : Bool := pageSizeExtension.test f.bits

def hasGlobalPages (f : Features) : Bool := globalPages.test f.bits

/-- The report as a whole, of which this library reads one word. -/
def describe (f : Features) : String := "Leaf01h \x7b edx: " ++ layout.describe f.bits ++ " \x7d"

end Features

end Paging
