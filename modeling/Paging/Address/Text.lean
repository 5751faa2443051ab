import Paging.Address.Basic
import Paging.Text.Hex

/-!
# How addresses, pages and offsets are written

`display` is the form used inside messages, `describe` the one that also tells the kind.
-/

namespace Paging

variable {k : AddressKind} {s : PageSize}

def Address.display (a : Address k) : String := hexWord a.val

/-- The address with a tag for its kind, as in `PA(0x00001000)`. -/
def Address.describe {k : AddressKind} (a : Address k) : String :=
  let tag := match k with
    | .memory => "MemoryAddress"
    | .physical => "PA"
    | .virtual => "VA"
  tag ++ "(" ++ a.display ++ ")"

/-- Base and size, as in `0x00001000/4K`. -/
def Page.display (p : Page k s) : String := p.base.display ++ "/" ++ s.label

/-- The long name under which a page size appears in the text of a page that is neither physical
nor virtual. -/
def PageSize.longName : PageSize → String
  | small => "kernel_memory_addresses::page_size::Size4K"
  | large => "kernel_memory_addresses::page_size::Size4M"

/-- The page with a tag for its kind and size, as in `PhysicalPage<4K>(0x00001000)`. -/
def Page.describe {k : AddressKind} (p : Page k s) : String :=
  match k with
  | .memory => "MemoryPage<" ++ s.longName ++ ">(" ++ p.base.display ++ ")"
  | .physical => "PhysicalPage<" ++ s.label ++ ">(" ++ p.base.display ++ ")"
  | .virtual => "vpage " ++ p.display

/-- Offset and page size, as in `+0x12/4K`. -/
def Offset.describe (o : Offset s) : String := "+" ++ hex o.bytes ++ "/" ++ s.label

/-- A frame that has been handed out, as in `Frame(0x00001000)`. -/
def Frame.describeTaken (f : Frame) : String := "Frame(" ++ f.base.display ++ ")"

end Paging
