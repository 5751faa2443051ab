import Paging.Refusal
import Paging.Table.Entry

/-!
# The log

Every operation reports what it did as `LogEvent`s. An event has a level and a text; a `Log` keeps
the events that its threshold admits, oldest first.
-/

namespace Paging

inductive LogLevel where
  | warn
  | info
  | debug
  | trace
  deriving DecidableEq

namespace LogLevel

/-- Position from the most to the least severe. -/
def rank : LogLevel → Nat
  | warn => 0
  | info => 1
  | debug => 2
  | trace => 3

def label : LogLevel → String
  | warn => "WARN"
  | info => "INFO"
  | debug => "DEBUG"
  | trace => "TRACE"

end LogLevel

inductive LogEvent where
  -- the frame pool
  | poolReady (base : Frame) (frames : Nat)
  | frameReserved (f : Frame)
  | frameTaken (f : Frame)
  | frameFreed (f : Frame)
  | foreignFrame (f : Frame)
  -- boot and installation
  | noDirectoryFrame
  | noBootTableFrame
  | directoryBuilt (directory table : Frame)
  | bootRefused
  | bootStarted
  | bootDone
  | installRefused (root : Frame)
  | installed (root : Frame)
  -- changes of an address space
  | lookupInWindow (va : VirtualAddress)
  | lookupInLargePage (va : VirtualAddress) (page : Page .physical .large)
  | noTableFrame (slot : SlotIndex)
  | tableCreated (table : Frame) (slot : SlotIndex)
  | mapped (page : Page .virtual .small) (frame : Frame) (flags : EntryBits)
  | unmapped (page : Page .virtual .small)
  | unmapIgnored (va : VirtualAddress) (e : MapRefusal)
  | windowKept
  | tableKept (slot : SlotIndex)
  | largeReleased (page : Page .physical .large) (slot : SlotIndex)
  deriving DecidableEq

namespace LogEvent

def level : LogEvent → LogLevel
  | foreignFrame .. | noDirectoryFrame | noBootTableFrame | bootRefused | installRefused ..
  | lookupInWindow .. | lookupInLargePage .. | noTableFrame .. | windowKept | tableKept .. => .warn
  | bootStarted | bootDone | installed .. => .info
  | poolReady .. | directoryBuilt .. | tableCreated .. | unmapIgnored .. | largeReleased .. => .debug
  | frameReserved .. | frameTaken .. | frameFreed .. | mapped .. | unmapped .. => .trace

def message : LogEvent → String
  | poolReady base frames =>
    "bitmap frame allocator: " ++ frames.repr ++ " frames at " ++ base.base.display ++ " (" ++
      (frames * 4).repr ++ " KiB)"
  | frameReserved f => "reserved frame " ++ f.base.display
  | frameTaken f => "alloc frame " ++ f.base.display
  | frameFreed f => "free frame " ++ f.base.display
  | foreignFrame f => "ignoring free of foreign frame " ++ f.base.display
  | noDirectoryFrame => "no frame for the boot page directory"
  | noBootTableFrame => "no frame for the boot page table"
  | directoryBuilt d t =>
    "boot directory at " ++ d.base.display ++ ", identity table at " ++ t.base.display
  | bootRefused => "no PSE support; boot address space not built"
  | bootStarted => "building boot address space"
  | bootDone => "paging enabled"
  | installRefused root => "refusing to activate " ++ root.describe ++ ": no PSE support"
  | installed root => "page directory " ++ root.base.display ++ " is now active"
  | lookupInWindow va =>
    "refusing 4 KiB lookup of " ++ va.display ++ " inside the self-map window"
  | lookupInLargePage va p =>
    "refusing 4 KiB lookup of " ++ va.display ++ " inside large page " ++ p.base.display
  | noTableFrame i => "no frame for the page table of " ++ (SlotIndex.base i).display
  | tableCreated t i =>
    "created page table " ++ t.base.display ++ " for region " ++ (SlotIndex.base i).display
  | mapped p f flags =>
    "map " ++ p.display ++ " -> " ++ f.display ++ " [" ++ hexPadded 3 flags.bits.toNat ++ "]"
  | unmapped p => "unmap " ++ p.display
  | unmapIgnored va e => "unmap of " ++ va.display ++ " ignored: " ++ e.message
  | windowKept => "refusing to release the self-map window"
  | tableKept i => "refusing to release table-backed region " ++ (SlotIndex.base i).display
  | largeReleased p i =>
    "released large page " ++ p.base.display ++ " at " ++ (SlotIndex.base i).display

/-- Level and text, as one line. -/
def line (e : LogEvent) : String := e.level.label ++ " " ++ e.message

end LogEvent

/-- The events that passed the threshold so far; without a threshold none does. -/
structure Log where
  threshold : Option LogLevel
  events : Array LogEvent := #[]

namespace Log

def admits (l : Log) (e : LogEvent) : Bool :=
  match l.threshold with
  | some t => e.level.rank ≤ t.rank
  | none => false

def add (l : Log) (e : LogEvent) : Log :=
  if l.admits e then { l with events := l.events.push e } else l

/-- What was added after the first `n` events. -/
def since (l : Log) (n : Nat) : List LogEvent := l.events.toList.drop n

end Log

/-- Monads in which an operation can report. -/
class MonadLog (m : Type → Type) where
  emit : LogEvent → m Unit

export MonadLog (emit)

end Paging
