import Paging.Geometry
import Paging.Word.Fields
import Paging.Word.Layout

/-!
# Page entries and directory slots

Both are 32-bit words. `EntryBits` is an entry of a page table: twelve flag bits and a frame. A
directory slot (`DirEntry`) is read in one of two ways: with bit 7 clear it links a page table
(`TableLink`), with bit 7 set it maps a 4 MiB page itself (`LargeLeaf`). `DirEntry.content?` decides
which; `DirEntry.link` and `DirEntry.large` write the two forms. `leaf?`, `link?` and `large?` make the
same words through setters that refuse a number too large for its field.
-/

namespace Paging

/-! ## Entries of a page table -/

/-- A page-table entry, or the flags from which one is made. -/
@[ext] structure EntryBits where
  bits : UInt32
  deriving DecidableEq

namespace EntryBits

def layout : Layout where
  name := "PageEntryBits"
  members := [⟨"present", presentField, true⟩, ⟨"writable", writableField, true⟩,
    ⟨"user_access", userField, true⟩, ⟨"write_through", writeThroughField, true⟩,
    ⟨"cache_disabled", cacheDisabledField, true⟩, ⟨"accessed", accessedField, true⟩,
    ⟨"dirty", dirtyField, true⟩, ⟨"large_page", bit7Field, true⟩,
    ⟨"global_translation", globalField, true⟩, ⟨"os_available", availableField, true⟩,
    ⟨"phys_addr_bits_31_12", frameField, false⟩]

/-- The bits below the frame. -/
def flagBits : UInt32 := 0x00000FFF

/-- No mapping. -/
def absent : EntryBits := ⟨0⟩

def present (e : EntryBits) : Bool := presentField.test e.bits
def writable (e : EntryBits) : Bool := writableField.test e.bits
def userAccess (e : EntryBits) : Bool := userField.test e.bits

/-- The frame that the entry names. -/
def frame (e : EntryBits) : Frame := ⟨frameField.get e.bits, frameField.get_lt e.bits⟩

def withPresent (e : EntryBits) : EntryBits := ⟨presentField.put e.bits 1⟩

def withFrame (e : EntryBits) (f : Frame) : EntryBits := ⟨frameField.put e.bits f.number⟩

/-- The twelve flag bits alone. -/
def flags (e : EntryBits) : EntryBits := ⟨e.bits &&& flagBits⟩

/-- The flags that a 4 KiB mapping takes over: all twelve, with `present` forced. Bit 7 stays, since
a page-table entry does not read it as a page size. -/
def mappingFlags (e : EntryBits) : EntryBits := e.flags.withPresent

/-- Whether every flag of `other` is also set in `e`. -/
def includes (e other : EntryBits) : Bool := e.bits &&& other.flags.bits == other.flags.bits

/-- Present and writable, for the supervisor only. -/
def supervisorRw : EntryBits := ⟨writableField.put (presentField.put 0 1) 1⟩

/-- The entry that maps frame `f` with the flags of `flags`. -/
def leaf (f : Frame) (flags : EntryBits) : EntryBits := flags.mappingFlags.withFrame f

/-- `leaf`, through setters that refuse a value too large for its field. -/
def leaf? (f : Frame) (flags : EntryBits) : Option EntryBits := do
  let w ← presentField.put? flags.flags.bits 1
  let w ← frameField.put? w f.number
  return ⟨w⟩

/-- What a present entry maps: its frame, and the entry itself for the flags. -/
def mapping? (e : EntryBits) : Option (Frame × EntryBits) :=
  if e.present then some (e.frame, e) else none

def describe (e : EntryBits) : String := "PtEntry(" ++ layout.describe e.bits ++ ")"

end EntryBits

/-! ## The two readings of a directory slot -/

/-- A directory slot read as the link to a page table. -/
@[ext] structure TableLink where
  bits : UInt32
  deriving DecidableEq

namespace TableLink

def layout : Layout where
  name := "Pde"
  members := [⟨"present", presentField, true⟩, ⟨"writable", writableField, true⟩,
    ⟨"user", userField, true⟩, ⟨"write_through", writeThroughField, true⟩,
    ⟨"cache_disable", cacheDisableField, true⟩, ⟨"accessed", accessedField, true⟩,
    ⟨"os_available", availableField, true⟩, ⟨"table_frame", frameField, false⟩]

/-- The frame of the linked table. -/
def frame (l : TableLink) : Frame := ⟨frameField.get l.bits, frameField.get_lt l.bits⟩

def withPresent (l : TableLink) : TableLink := ⟨presentField.put l.bits 1⟩

def withFrame (l : TableLink) (f : Frame) : TableLink := ⟨frameField.put l.bits f.number⟩

/-- Present and writable, for the supervisor only: the links of the boot directory. -/
def supervisorRw : TableLink := ⟨writableField.put (presentField.put 0 1) 1⟩

/-- Present, writable and open to user code: the link of a table made on demand. The processor
combines the rights of both levels, so this leaves the decision to the page entries. -/
def userRw : TableLink := ⟨userField.put supervisorRw.bits 1⟩

end TableLink

/-- A directory slot read as a 4 MiB page. -/
@[ext] structure LargeLeaf where
  bits : UInt32
  deriving DecidableEq

namespace LargeLeaf

/-- A fresh value already has the page-size bit, which tells it from a table link. -/
def blank : LargeLeaf := ⟨pageSizeField.put 0 1⟩

def layout : Layout where
  name := "Pde4M"
  members := [⟨"present", presentField, true⟩, ⟨"writable", writableField, true⟩,
    ⟨"user", userField, true⟩, ⟨"write_through", writeThroughField, true⟩,
    ⟨"cache_disable", cacheDisableField, true⟩, ⟨"accessed", accessedField, true⟩,
    ⟨"dirty", dirtyField, true⟩, ⟨"page_size", pageSizeField, false⟩,
    ⟨"global", globalField, true⟩, ⟨"os_available", availableField, true⟩,
    ⟨"pat", attributeField, true⟩, ⟨"large_frame", pageField, false⟩]
  blank := blank.bits

/-- The 4 MiB of physical memory that the leaf maps. -/
def page (l : LargeLeaf) : Page .physical .large := ⟨pageField.get l.bits, pageField.get_lt l.bits⟩

def withPresent (l : LargeLeaf) : LargeLeaf := ⟨presentField.put l.bits 1⟩

/-- The leaf for page `p`; the page-size bit is set along with the address. -/
def withPage (l : LargeLeaf) (p : Page .physical .large) : LargeLeaf :=
  ⟨pageSizeField.put (pageField.put l.bits p.number) 1⟩

/-- Present and writable, for the supervisor only. -/
def supervisorRw : LargeLeaf :=
  ⟨pageSizeField.put (writableField.put (presentField.put blank.bits 1) 1) 1⟩

end LargeLeaf

/-! ## Directory slots -/

/-- The contents of a directory slot, not yet read either way. -/
@[ext] structure DirEntry where
  bits : UInt32
  deriving DecidableEq

/-- What a present directory slot holds. -/
inductive SlotContent where
  | table (frame : Frame) (link : TableLink)
  | large (page : Page .physical .large) (leaf : LargeLeaf)
  deriving DecidableEq

namespace DirEntry

/-- An absent slot. -/
def absent : DirEntry := ⟨0⟩

def present (e : DirEntry) : Bool := TableLink.presentField.test e.bits

/-- The bit that tells a 4 MiB page from a table link. -/
def pageSize (e : DirEntry) : Bool := LargeLeaf.pageSizeField.test e.bits

/-- Reads a present slot. An absent one holds nothing, whatever its other bits say. -/
def content? (e : DirEntry) : Option SlotContent :=
  if e.present then
    if e.pageSize then some (.large (LargeLeaf.mk e.bits).page ⟨e.bits⟩)
    else some (.table (TableLink.mk e.bits).frame ⟨e.bits⟩)
  else none

/-- A present link to the table in `f`; the page-size bit is forced clear. -/
def link (flags : TableLink) (f : Frame) : DirEntry :=
  ⟨LargeLeaf.pageSizeField.put (flags.withPresent.withFrame f).bits 0⟩

/-- A present mapping of the 4 MiB page `p`; the page-size bit is forced set. -/
def large (flags : LargeLeaf) (p : Page .physical .large) : DirEntry :=
  ⟨(flags.withPresent.withPage p).bits⟩

/-- `link`, through setters that refuse a value too large for its field. -/
def link? (flags : TableLink) (f : Frame) : Option DirEntry := do
  let w ← TableLink.presentField.put? flags.bits 1
  let w ← TableLink.frameField.put? w f.number
  return ⟨w &&& ~~~0x80⟩

/-- `large`, through setters that refuse a value too large for its field. The number of the page is cut to
16 bits on its way. -/
def large? (flags : LargeLeaf) (p : Page .physical .large) : Option DirEntry := do
  let w ← LargeLeaf.presentField.put? flags.bits 1
  let w ← LargeLeaf.pageField.put? w (UInt16.ofNat p.number).toNat
  let w ← LargeLeaf.pageSizeField.put? w 1
  return ⟨w⟩

end DirEntry

end Paging
