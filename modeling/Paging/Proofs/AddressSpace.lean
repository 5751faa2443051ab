import Mathlib.Logic.Function.Basic
import Paging.Proofs.Tables
import Paging.Session.Run

/-!
# The address space without its tables

What an address space is to its users: each of the 1024 areas of 4 MiB is the window, one page of
4 MiB, absent, or a partial map from its 1024 pages to frames and flags. No directory, window or
cached translation occurs here, and of the pool only the number of free frames. `AddressSpace.step`
says what every step does to it and answers.
-/

namespace Paging

/-- A 4 KiB page as it is mapped: its frame and twelve flag bits. -/
@[ext] structure Mapping where
  frame : Frame
  flags : UInt32
  flags_lt : flags < 0x1000
  deriving DecidableEq

namespace Mapping

/-- The low twelve bits of `flags`, with `present`. -/
def ofFlags (f : Frame) (flags : EntryBits) : Mapping where
  frame := f
  flags := flags.bits &&& 0xFFF ||| 1
  flags_lt := by
    rw [UInt32.lt_iff_toNat_lt, UInt32.toNat_or, UInt32.toNat_and]
    exact Nat.or_lt_two_pow (n := 12) (Nat.and_lt_two_pow _ (by decide)) (by decide)

/-- The page-table entry of a mapping: the frame above its flags. -/
def entry (m : Mapping) : EntryBits := ⟨m.frame.base.val ||| m.flags⟩

end Mapping

inductive Area where
  /-- The window onto the tables. -/
  | window
  /-- One page of 4 MiB, at its own place in physical memory. -/
  | large
  | absent
  | table (pages : EntryIndex → Option Mapping)

def Area.region : Area → Region
  | window => .selfMap
  | large => .identityLarge
  | absent => .unmapped
  | table _ => .tableBacked

@[ext] structure AddressSpace where
  area : SlotIndex → Area
  /-- Frames that are left for new tables. -/
  free : Nat

namespace AddressSpace

/-- The address space that boot sets up: small pages in the first area, 4 MiB pages up to the window,
everything at its own place. -/
def boot (free : Nat) : AddressSpace where
  area i :=
    if i.val = 0 then .table fun k => some ⟨Page.part ⟨0, PageSize.large.pageCount_pos⟩ k, 0x003, by decide⟩
    else if i = selfMapSlot then .window
    else .large
  free := free

def setArea (a : AddressSpace) (i : SlotIndex) (x : Area) : AddressSpace :=
  { a with area := Function.update a.area i x }

/-- The pages of an area, with the page of `va` mapped or not. -/
def store (a : AddressSpace) (va : VirtualAddress) (pages : EntryIndex → Option Mapping)
    (m : Option Mapping) : AddressSpace :=
  a.setArea va.slotIndex (.table (Function.update pages va.entryIndex m))

/-- The pages of the area of `va`. With `create`, an absent area first becomes one without pages, if a
frame is left for its table. -/
def lookup (a : AddressSpace) (va : VirtualAddress) (create : Bool) :
    Except MapRefusal (Option (EntryIndex → Option Mapping)) × AddressSpace :=
  match a.area va.slotIndex with
  | .window | .large => (.error (.notMappable va), a)
  | .table pages => (.ok (some pages), a)
  | .absent =>
    if create then
      if a.free = 0 then (.error .noFrame, a)
      else
        (.ok (some fun _ => none),
          { a.setArea va.slotIndex (.table fun _ => none) with free := a.free - 1 })
    else (.ok none, a)

/-! ## Changes -/

def map (a : AddressSpace) (va : VirtualAddress) (pa : PhysicalAddress) (flags : EntryBits) :
    Except MapRefusal Unit × AddressSpace :=
  match a.lookup va true with
  | (.error e, a') => (.error e, a')
  | (.ok none, a') => (.error (.notMappable va), a')
  | (.ok (some pages), a') => (.ok (), a'.store va pages (some (.ofFlags (pa.page .small) flags)))

def unmap (a : AddressSpace) (va : VirtualAddress) : AddressSpace :=
  match a.area va.slotIndex with
  | .table pages => a.store va pages none
  | _ => a

def releaseLarge (a : AddressSpace) (va : VirtualAddress) : Except MapRefusal Unit × AddressSpace :=
  match a.area va.slotIndex with
  | .large => (.ok (), a.setArea va.slotIndex .absent)
  | .absent => (.ok (), a)
  | .table _ | .window => (.error (.notMappable va), a)

def mapPages (a : AddressSpace) (va : VirtualAddress) (first : Page .virtual .small) (frame : Frame)
    (flags : EntryBits) : (i n : Nat) → Except MapRefusal Unit × AddressSpace
  | _, 0 => (.ok (), a)
  | i, n + 1 =>
    match first.advance? i, frame.advance? i with
    | some p, some f =>
      match a.map p.base f.base flags with
      | (.ok (), a') => a'.mapPages va first frame flags (i + 1) n
      | (.error e, a') => (.error e, a')
    | _, _ => (.error (.notMappable va), a)

def unmapPages (a : AddressSpace) (first : Page .virtual .small) : (i n : Nat) → AddressSpace
  | _, 0 => a
  | i, n + 1 =>
    match first.advance? i with
    | some p => (a.unmap p.base).unmapPages first (i + 1) n
    | none => a

/-! ## Questions -/

/-- The physical address behind `va`, with its flags. In the window this depends on where the tables
lie, which an address space does not say. -/
def translate (a : AddressSpace) (va : VirtualAddress) : Option (PhysicalAddress × EntryBits) :=
  match a.area va.slotIndex with
  | .table pages => (pages va.entryIndex).map fun m => (m.frame.join (va.offset .small), ⟨m.flags⟩)
  | .large => some (va.slotIndex.identity.join (va.offset .large), ⟨0x083⟩)
  | .absent | .window => none

def entriesOf (a : AddressSpace) (i : SlotIndex) : Option (List (EntryIndex × EntryBits)) :=
  match a.area i with
  | .table pages => some ((List.finRange 1024).filterMap fun k => (pages k).map fun m => (k, m.entry))
  | _ => none

def layout (a : AddressSpace) : List SlotRun :=
  SlotRun.ofRegions ((List.finRange 1024).map fun i => (i, (a.area i).region))

/-! ## Steps -/

/-- The entry that a lookup finds for a page. -/
def shown : Option Mapping → EntryBits
  | some m => m.entry
  | none => .absent

/-- What is found for `va` in `pages`, after writing as asked. -/
def useEntry (a : AddressSpace) (va : VirtualAddress) (pages : EntryIndex → Option Mapping) :
    Option EntryWrite → EntryBits × AddressSpace
  | none => (shown (pages va.entryIndex), a)
  | some .clear => (.absent, a.store va pages none)
  | some (.leaf pa flags) =>
    let m := Mapping.ofFlags (pa.page .small) flags
    (m.entry, a.store va pages (some m))

/-- Slot contents show where tables lie, so an address space has no answer to them. -/
def step (a : AddressSpace) : SpaceStep → Except StepError Answer × AddressSpace
  | .map va pa flags => let (r, a') := a.map va pa flags; (Space.done r, a')
  | .mapSpan va pa len flags =>
    let (r, a') := a.mapPages va (va.page .small) (pa.page .small) flags 0 (Space.pagesInSpan va len)
    (Space.done r, a')
  | .unmap va => (.ok .nothing, a.unmap va)
  | .unmapSpan va len => (.ok .nothing, a.unmapPages (va.page .small) 0 (Space.pagesInSpan va len))
  | .releaseLarge va => let (r, a') := a.releaseLarge va; (Space.done r, a')
  | .locate va create write =>
    match a.lookup va create with
    | (.error e, a') => (.error (.map e), a')
    | (.ok none, a') => (.ok .nothing, a')
    | (.ok (some pages), a') => let (e, a'') := a'.useEntry va pages write; (.ok (.entry e), a'')
  | .translate va => (.ok (.ofOption (fun r => .translation r.1 r.2) (a.translate va)), a)
  | .regionOf va => (.ok (.region (a.area va.slotIndex).region), a)
  | .slotContent _ => (.ok .nothing, a)
  | .entriesOf n =>
    match checkIndex n with
    | .ok i => (.ok (.ofOption .entries (a.entriesOf i)), a)
    | .error f => (.error (.fault f), a)
  | .layout => (.ok (.layout a.layout), a)

def run (a : AddressSpace) (ps : List SpaceStep) : AddressSpace := ps.foldl (fun a p => (a.step p).2) a

/-- The window is where it was put, and nowhere else, and the first area stays mapped page by page. -/
structure WellFormed (a : AddressSpace) : Prop where
  window : ∀ i, a.area i = .window ↔ i = selfMapSlot
  first : ∃ pages, a.area 0 = .table pages

end AddressSpace

/-- The answer to the step does not depend on where tables lie in memory. -/
def SpaceStep.Public : SpaceStep → Prop
  | .slotContent _ => False
  | .translate va => va.slotIndex ≠ selfMapSlot
  | _ => True

end Paging
