import Paging.Table.Entry
import Paging.Address.Text

/-! # How directory slots and indices are written -/

namespace Paging

namespace SlotContent

def describe : SlotContent → String
  | table f l => "NextPageTable(" ++ f.describe ++ ", " ++ TableLink.layout.describe l.bits ++ ")"
  | large p l => "Leaf4MiB(" ++ p.describe ++ ", " ++ LargeLeaf.layout.describe l.bits ++ ")"

end SlotContent

/-- What a slot holds, if it is present. -/
def DirEntry.describe (e : DirEntry) : String :=
  match e.content? with
  | some c => "Some(" ++ c.describe ++ ")"
  | none => "None"

def SlotIndex.describe (i : SlotIndex) : String := "DirIndex(" ++ toString i.val ++ ")"

def EntryIndex.describe (i : EntryIndex) : String := "TableIndex(" ++ toString i.val ++ ")"

end Paging
