/-!
# The two page sizes

A page-table entry maps 4 KiB, a directory slot without a table 4 MiB. Either size divides the
4 GiB address space evenly: `bytes_mul_pageCount`.
-/

namespace Paging

/-- A page of 4 KiB (`small`) or of 4 MiB (`large`). -/
inductive PageSize where
  | small
  | large
  deriving DecidableEq

namespace PageSize

/-- Number of low address bits that lie inside one page. -/
def shift : PageSize → Nat
  | small => 12
  | large => 22

/-- Bytes in one page. -/
def bytes : PageSize → Nat
  | small => 4096
  | large => 4194304

/-- Pages in the 4 GiB address space. -/
def pageCount : PageSize → Nat
  | small => 1048576
  | large => 1024

/-- The word whose set bits select the offset inside a page. -/
def offsetMask : PageSize → UInt32
  | small => 0x00000FFF
  | large => 0x003FFFFF

def label : PageSize → String
  | small => "4K"
  | large => "4M"

theorem bytes_pos (s : PageSize) : 0 < s.bytes := by cases s <;> decide

theorem pageCount_pos (s : PageSize) : 0 < s.pageCount := by cases s <;> decide

theorem bytes_mul_pageCount (s : PageSize) : s.bytes * s.pageCount = UInt32.size := by cases s <;> rfl

end PageSize

end Paging
