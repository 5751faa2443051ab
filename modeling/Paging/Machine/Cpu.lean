import Paging.Machine.Tlb

/-!
# The processor, as far as paging sees it

`HardwareCall` lists what an operating system asks of the processor, `Cpu.execute` what each call
does. `MonadProcessor` is the interface through which directories are installed; any monad that can
answer it will do.
-/

namespace Paging

inductive HardwareCall where
  /-- Lets directory slots map 4 MiB. -/
  | largePagesOn
  /-- Installs the directory in `root`; everything cached is dropped. -/
  | setRoot (root : Frame)
  | pagingOn
  /-- Drops what is cached for one page. -/
  | invalidate (page : Page .virtual .small)
  deriving DecidableEq

structure Cpu where
  /-- Whether the processor has 4 MiB pages. -/
  hasLargePages : Bool
  largePages : Bool := false
  paging : Bool := false
  /-- The frame of the installed directory. -/
  root : Option Frame := none
  tlb : Tlb := .empty
  deriving DecidableEq

def Cpu.execute (c : Cpu) : HardwareCall → Cpu
  | .largePagesOn => { c with largePages := true }
  | .setRoot root => { c with root := some root, tlb := .empty }
  | .pagingOn => { c with paging := true }
  | .invalidate page => { c with tlb := c.tlb.drop page }

/-- Monads in which a processor can be asked and told. -/
class MonadProcessor (m : Type → Type) where
  hasLargePages : m Bool
  call : HardwareCall → m Unit

end Paging
