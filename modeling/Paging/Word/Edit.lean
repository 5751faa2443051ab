import Paging.Table.Entry
import Paging.Word.Registers

/-!
# Editing the seven words

`WordKind` lists the words that have a layout. A `WordEdit` is one change or question; `edit?` says
what it answers and which word it leaves. An edit that a kind does not have gives `none`; an edit
that is refused leaves the word as it was.
-/

namespace Paging

/-- The words with named fields. -/
inductive WordKind where
  | entry
  | link
  | largeLeaf
  | cr0
  | cr3
  | cr4
  | features
  deriving DecidableEq

/-- Where a word comes from. -/
inductive WordStart where
  | raw (w : UInt32)
  | blank
  | supervisorRw
  | userRw
  deriving DecidableEq

inductive WordEdit where
  /-- Sets a member; a value that does not fit is a fault. -/
  | put (m : Member) (v : Nat)
  /-- Sets a member; a value that does not fit is refused. -/
  | putChecked (m : Member) (v : Nat)
  /-- Sets the address field to the page that contains `a`. -/
  | address (a : PhysicalAddress)
  /-- Replaces `CR3` by the one for a directory at `a`, keeping how it is cached. -/
  | directory (a : PhysicalAddress)
  | keepFlags
  | mappingFlags
  | includes (other : UInt32)
  | largePages
  deriving DecidableEq

inductive EditAnswer where
  | word (w : UInt32)
  | flag (b : Bool)
  | outOfRange
  | fault (f : Fault)
  deriving DecidableEq

namespace WordKind

def layout : WordKind → Layout
  | entry => EntryBits.layout
  | link => TableLink.layout
  | largeLeaf => LargeLeaf.layout
  | cr0 => Cr0.layout
  | cr3 => Cr3.layout
  | cr4 => Cr4.layout
  | features => Features.layout

/-- The word to start from, if the kind has it. -/
def start? (k : WordKind) : WordStart → Option UInt32
  | .raw w => some w
  | .blank => some k.layout.blank
  | .supervisorRw =>
    match k with
    | entry => some EntryBits.supervisorRw.bits
    | link => some TableLink.supervisorRw.bits
    | largeLeaf => some LargeLeaf.supervisorRw.bits
    | _ => none
  | .userRw =>
    match k with
    | link => some TableLink.userRw.bits
    | _ => none

/-- The word with its address field set to the page that contains `a`. -/
def putAddress? (k : WordKind) (w : UInt32) (a : PhysicalAddress) : Option UInt32 :=
  match k with
  | entry => some ((EntryBits.mk w).withFrame (a.page .small)).bits
  | link => some ((TableLink.mk w).withFrame (a.page .small)).bits
  | largeLeaf => some ((LargeLeaf.mk w).withPage (a.page .large)).bits
  | _ => none

/-- The address that the word holds. -/
def address? (k : WordKind) (w : UInt32) : Option PhysicalAddress :=
  match k with
  | entry => some (EntryBits.mk w).frame.base
  | link => some (TableLink.mk w).frame.base
  | largeLeaf => some (LargeLeaf.mk w).page.base
  | cr3 => some (Cr3.mk w).directory.base
  | _ => none

/-- Answer of an edit that succeeds with the word `w`. -/
def written (w : UInt32) : EditAnswer × UInt32 := (.word w, w)

def edit? (k : WordKind) (w : UInt32) : WordEdit → Option (EditAnswer × UInt32)
  | .put m v =>
    match m.field.put? w v with
    | some w' => some (written w')
    | none => some (.fault (.fieldOverflow m.max), w)
  | .putChecked m v =>
    match m.field.put? w v with
    | some w' => some (written w')
    | none => some (.outOfRange, w)
  | .address a => (k.putAddress? w a).map written
  | .directory a =>
    match k with
    | cr3 =>
      match Cr3.ofDirectory a (Cr3.writeThrough.test w) (Cr3.cacheDisable.test w) with
      | .ok c => some (written c.bits)
      | .error f => some (.fault f, w)
    | _ => none
  | .keepFlags =>
    match k with
    | entry => some (written (EntryBits.mk w).flags.bits)
    | _ => none
  | .mappingFlags =>
    match k with
    | entry => some (written (EntryBits.mk w).mappingFlags.bits)
    | _ => none
  | .includes other =>
    match k with
    | entry => some (.flag ((EntryBits.mk w).includes ⟨other⟩), w)
    | _ => none
  | .largePages =>
    match k with
    | cr4 => some (written (Cr4.mk w).forLargePages.bits)
    | _ => none

/-- Runs edits in order; `none` if the kind lacks one of them. -/
def editAll? (k : WordKind) (w : UInt32) : List WordEdit → Option (List EditAnswer × UInt32)
  | [] => some ([], w)
  | e :: es =>
    match k.edit? w e with
    | none => none
    | some (a, w') => (k.editAll? w' es).map fun (as, w'') => (a :: as, w'')

end WordKind

end Paging
