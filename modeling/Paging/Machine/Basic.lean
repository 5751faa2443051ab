import Paging.Log
import Paging.Fault
import Paging.Pool.Basic
import Paging.Machine.Cpu
import Paging.Machine.Walk

/-!
# The machine

A `Machine` is memory, a processor, the pool from which page tables are taken, and three records: the
hardware calls that were made, the windows that were used, and the log. Operations are `MachineM`
actions. They end with a value or with a `Fault`, and either way leave the machine as it was reached.

`window` is how tables are reached once paging is on: it resolves a virtual page as the processor
would, from the cached translations or else by a walk, which is then cached.

Words are made and figures are formed with the checks of a debug build. A number too large for its field
(`fitted`), an index past the end of a table (`index`), and a sum or a product too large for its word are
faults.
-/

namespace Paging

/-- One use of a window: the page, the frame that was seen there, and the directory word that stood
behind the page at that moment. -/
structure WindowUse where
  page : Page .virtual .small
  frame : Frame
  word : Option UInt32
  deriving DecidableEq

structure Machine where
  ram : Ram
  cpu : Cpu
  pool : FramePool
  /-- Frames that the pool handed to the paging operations. -/
  taken : Nat := 0
  /-- Frames that the paging operations gave back. -/
  returned : Nat := 0
  /-- The hardware calls so far, oldest first. -/
  calls : Array HardwareCall := #[]
  /-- The windows used so far, oldest first. -/
  uses : Array WindowUse := #[]
  log : Log

abbrev MachineM := EStateM Fault Machine

namespace Machine

instance : MonadLog MachineM where
  emit e := modify fun m => { m with log := m.log.add e }

instance : MonadProcessor MachineM where
  hasLargePages := do return (← get).cpu.hasLargePages
  call c := modify fun m => { m with cpu := m.cpu.execute c, calls := m.calls.push c }

/-- Drops the cached translation of a page. -/
def invalidate (page : Page .virtual .small) : MachineM Unit := MonadProcessor.call (.invalidate page)

/-! ## Checks -/

/-- A word that was made by setters that refuse. The number for field `f` is the only one that may be too
large. -/
def fitted {α : Type} (f : Field) : Option α → MachineM α
  | some a => pure a
  | none => throw (.fieldOverflow (f.size - 1))

/-- The index `n`, which must be below 1024. -/
def index (n : Nat) : MachineM (Fin 1024) := ofExcept (checkIndex n)

/-- The slot for `va`, in the 16 bits of an index. -/
def slotOf (va : VirtualAddress) : MachineM SlotIndex := index (va.val >>> 22).toUInt16.toNat

/-- The entry for `va` in the table of its slot, in the 16 bits of an index. -/
def entryOf (va : VirtualAddress) : MachineM EntryIndex := index (va.val >>> 12 &&& 0x3FF).toUInt16.toNat

/-- The address at which the table of slot `i` is seen. -/
def viewOf (i : SlotIndex) : MachineM VirtualAddress := do
  let bytes ← ofExcept (mulBelow UInt32.size i.val PageSize.small.bytes)
  ofExcept (windowBase.add (UInt32.ofNat bytes))

/-- The page `n` places after `p`, if there is one. The way to it is a number of bytes in 64 bits. -/
def pageAfter {k : AddressKind} (p : Page k .small) (n : Nat) : MachineM (Option (Page k .small)) := do
  let bytes ← ofExcept (mulBelow UInt64.size n PageSize.small.bytes)
  if bytes < UInt32.size then return (p.base.add? (UInt32.ofNat bytes)).map (·.page .small)
  else return none

/-! ## Memory -/

/-- Reads word `i` of frame `f`. -/
def readWord (f : Frame) (i : Fin 1024) : MachineM UInt32 := do
  match (← get).ram.word? f i with
  | some w => pure w
  | none => throw (.busError (f.wordAddress i))

/-- Writes word `i` of frame `f`. -/
def writeWord (f : Frame) (i : Fin 1024) (w : UInt32) : MachineM Unit := do
  if (← get).ram.Holds f then modify fun m => { m with ram := m.ram.putWord f i w }
  else throw (.busError (f.wordAddress i))

/-- Reads a whole frame. -/
def readFrame (f : Frame) : MachineM FrameWords := do
  match (← get).ram.frame? f with
  | some ws => pure ws
  | none => throw (.busError f.base)

/-- Writes a whole frame. -/
def writeFrame (f : Frame) (ws : FrameWords) : MachineM Unit := do
  if (← get).ram.Holds f then modify fun m => { m with ram := m.ram.putFrame f ws }
  else throw (.busError f.base)

/-- Writes a whole frame, of words that are made one after the other. -/
def fillFrame (f : Frame) (word : Fin 1024 → MachineM UInt32) : MachineM Unit := do
  writeFrame f (frameOfList (← (List.finRange 1024).mapM word))

/-! ## Windows -/

/-- `f`, which must be memory. -/
def inMemory (f : Frame) : MachineM Frame := do
  if (← get).ram.Holds f then pure f else throw (.busError f.base)

/-- Notes that `f` is seen at window page `page`. The word behind the page is the directory slot of the
same place. -/
def noteUse (page : Page .virtual .small) (f : Frame) : MachineM Unit :=
  modify fun m =>
    let word := m.cpu.root.bind fun root => m.ram.word? root page.place
    { m with uses := m.uses.push ⟨page, f, word⟩ }

/-- The frame to which the processor resolves the page-aligned address `va`. A walk is cached even if it
leads to a frame that is not memory. -/
def resolve (va : VirtualAddress) : MachineM Frame := do
  let page := va.page .small
  match (← get).cpu.tlb.frame? page with
  | some f =>
    noteUse page f
    inMemory f
  | none =>
    match (← get).cpu.root with
    | none => throw .rootMissing
    | some root =>
      match (← get).ram.walk root va with
      | .busError pa => throw (.busError pa)
      | .slotAbsent => throw (.directoryEntryAbsent va)
      | .large _ => throw (.largePageInWindow va)
      | .entryAbsent _ => throw (.tableEntryAbsent va)
      | .small _ entry =>
        let f := Walk.frameOf entry
        modify fun m => { m with cpu := { m.cpu with tlb := m.cpu.tlb.insertSmall page f } }
        noteUse page f
        inMemory f

/-- The frame that is seen at the page-aligned address `va`, with paging on. -/
def window (va : VirtualAddress) : MachineM Frame := do
  if (← get).cpu.paging then resolve va else throw .pagingOff

/-- The frame of the installed directory, seen through the self-map. -/
def directory : MachineM Frame := window directoryView

/-- The frame of the table of slot `i`, seen through the self-map. The self-map slot has none. -/
def table (i : SlotIndex) : MachineM Frame :=
  if i = selfMapSlot then throw .selfMapTable else do window (← viewOf i)

/-! ## Frames for the paging operations -/

/-- Takes a frame from the pool. -/
def takeFrame : MachineM (Option Frame) := do
  match (← get).pool.takeLowest? with
  | none => pure none
  | some (f, pool) =>
    modify fun m => { m with pool, taken := m.taken + 1 }
    emit (.frameTaken f)
    pure (some f)

/-- Gives a frame back to the pool. -/
def returnFrame (f : Frame) : MachineM Unit := do
  modify fun m => { m with returned := m.returned + 1 }
  match (← get).pool.release f with
  | .foreign => emit (.foreignFrame f)
  | .twice => throw (.doubleFree f)
  | .released pool =>
    modify fun m => { m with pool }
    emit (.frameFreed f)

/-! ## What the processor may do by itself -/

/-- Caches what the tables give for `va` right now, if they give anything. -/
def cacheWalk (va : VirtualAddress) (m : Machine) : Machine :=
  match m.cpu.root.map fun root => m.ram.walk root va with
  | some (.small _ entry) =>
    { m with cpu := { m.cpu with tlb := m.cpu.tlb.insertSmall (va.page .small) (Walk.frameOf entry) } }
  | some (.large slot) =>
    { m with cpu := { m.cpu with tlb := m.cpu.tlb.insertLarge (va.page .large) (Walk.pageOf slot) } }
  | _ => m

end Machine

end Paging
