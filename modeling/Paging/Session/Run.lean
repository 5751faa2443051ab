import Paging.Session.Step

/-!
# Running a session

A `Session` holds a machine and what a user of it has in hand: the address space, a root record that
belongs to none yet, the directories that were built, and the borrowed frames. `Session.step` runs
one step, `Session.report` also says what the step did to the machine.
-/

namespace Paging

structure Session where
  machine : Machine
  /-- The root record of the address space, once there is one. -/
  space : Option RootRecord := none
  /-- A root record that belongs to no address space. -/
  spare : Option RootRecord := none
  /-- The built directories by number; one that was used is gone. -/
  built : Array (Option BuiltDirectory) := #[]
  /-- The borrowed frames by number; one that was given back is gone. -/
  lent : Array (Option Frame) := #[]

/-! ## Steps that need the machine alone -/

/-- An answer that may be absent. -/
def Answer.ofOption {α : Type} (f : α → Answer) : Option α → Answer
  | some a => f a
  | none => .nothing

namespace Machine

/-- A step on the table in frame `f`. -/
def tableStep (f : Frame) (s : TableStep) : MachineM TableAnswer := do
  let (answer, t) := (PageTable.mk (← readFrame f)).step s
  writeFrame f t.words
  match answer with
  | .ok a => pure a
  | .error e => throw e

/-- Slot `index` of the directory in frame `f`, after writing and clearing it as asked. -/
def slotStep (f : Frame) (index : Nat) (bits : Option DirEntry) (clear : Bool) : MachineM DirEntry := do
  let f ← inMemory f
  let i ← Machine.index index
  match bits with
  | some e => Space.writeSlot f i e
  | none => pure ()
  if clear then Space.writeSlot f i .absent
  Space.readSlot f i

/-- The present entries of the table that the window of slot `index` shows. -/
def windowEntries (index : Nat) : MachineM (List (EntryIndex × EntryBits)) := do
  let f ← table (← Machine.index index)
  return (PageTable.mk (← readFrame f)).mappings

end Machine

namespace Space

/-- The regions of all slots, as runs. -/
def layout : MachineM (List SlotRun) := do
  let regions ← (List.finRange 1024).mapM fun i => return (i, ← regionOf (SlotIndex.base i))
  return SlotRun.ofRegions regions

/-- Writes through a found entry and reads it back. -/
def useEntry (p : EntryPlace) : Option EntryWrite → MachineM EntryBits
  | none => p.read
  | some .clear => do p.write .absent; p.read
  | some (.leaf pa flags) => do
    p.write (← Machine.fitted EntryBits.frameField (EntryBits.leaf? (pa.page .small) flags))
    p.read

/-- The answer of an operation that is done or refused. -/
def done : Except MapRefusal Unit → Except StepError Answer
  | .ok () => .ok .nothing
  | .error e => .error (.map e)

def step : SpaceStep → MachineM (Except StepError Answer)
  | .map va pa flags => return done (← map va pa flags)
  | .mapSpan va pa len flags => return done (← mapSpan va pa len flags)
  | .unmap va => do unmap va; return .ok .nothing
  | .unmapSpan va len => do unmapSpan va len; return .ok .nothing
  | .releaseLarge va => return done (← releaseLarge va)
  | .locate va create write => do
    match ← locate va create with
    | .error e => return .error (.map e)
    | .ok none => return .ok .nothing
    | .ok (some p) => return .ok (.entry (← useEntry p write))
  | .translate va => return .ok (.ofOption (fun t => .translation t.1 t.2) (← translate va))
  | .regionOf va => return .ok (.region (← regionOf va))
  | .slotContent n => return .ok (.ofOption .content (← slotContent (← Machine.index n)))
  | .entriesOf n => return .ok (.ofOption .entries (← entriesOf (← Machine.index n)))
  | .layout => return .ok (.layout (← layout))

end Space

/-! ## Steps of the session -/

namespace Session

/-- A machine that was just switched on: paging is off and memory untouched. -/
def start (ram : Ram) (hasLargePages : Bool) (pool : FramePool) (threshold : Option LogLevel) :
    Session where
  machine := { ram, pool, cpu := { hasLargePages }, log := ⟨threshold, #[]⟩ }

/-- Runs an action on the machine of the session. -/
def act {α : Type} (s : Session) (x : MachineM α) : Except Fault α × Session :=
  match x s.machine with
  | .ok a m => (.ok a, { s with machine := m })
  | .error f m => (.error f, { s with machine := m })

/-- Runs an action whose result is the answer. -/
def answer {α : Type} (s : Session) (x : MachineM α) (f : α → Answer) :
    Except StepError Answer × Session :=
  match s.act x with
  | (.ok a, s') => (.ok (f a), s')
  | (.error e, s') => (.error (.fault e), s')

/-- Boots the machine. A new address space takes the place of the old one; after a refusal or a
fault, the old one stays. -/
def boot (s : Session) : Except StepError Answer × Session :=
  match s.act Paging.boot with
  | (.ok (.ok record), s') => (.ok .nothing, { s' with space := some record })
  | (.ok (.error e), s') => (.error (.boot e), s')
  | (.error f, s') => (.error (.fault f), s')

/-- Builds a directory and numbers it. -/
def build (s : Session) : Except StepError Answer × Session :=
  match s.act assembleDirectory with
  | (.ok (.ok d), s') => (.ok (.built d s'.built.size), { s' with built := s'.built.push (some d) })
  | (.ok (.error e), s') => (.error (.boot e), s')
  | (.error f, s') => (.error (.fault f), s')

/-- Installs a built directory, which is then used up, also by a refusal. -/
def install (s : Session) (n : Nat) : Except StepError Answer × Session :=
  match s.built[n]? with
  | some (some d) =>
    match s.act (RootRecord.install (s.spare.getD {}) d) with
    | (.ok (result, record), s') =>
      let s' := { s' with spare := some record, built := s'.built.setIfInBounds n none }
      match result with
      | .ok previous => (.ok (.installed previous record), s')
      | .error e => (.error (.boot (.install e)), s')
    | (.error f, s') => (.error (.fault f), s')
  | _ => (.error (.missing .builtDirectory), s)

def takeOver (s : Session) : Except StepError Answer × Session :=
  match s.spare with
  | some record => (.ok .nothing, { s with space := some record, spare := none })
  | none => (.error (.missing .rootRecord), s)

def status (s : Session) : Status where
  largePages := s.machine.cpu.largePages
  paging := s.machine.cpu.paging
  root := s.machine.cpu.root
  hasLargePages := s.space.map fun _ => s.machine.cpu.hasLargePages
  record := s.space <|> s.spare

/-- A step of the frame pool. -/
def poolStep (s : Session) (p : PoolStep) : Except StepError Answer × Session :=
  let (result, l) := Lending.step ⟨s.machine.pool, s.lent, s.machine.log⟩ p
  let machine := { s.machine with pool := l.pool, log := l.log }
  (result.map .pool, { s with lent := l.lent, machine })

/-- A step of the address space, if there is one. -/
def spaceStep (s : Session) (p : SpaceStep) : Except StepError Answer × Session :=
  match s.space with
  | none => (.error (.missing .addressSpace), s)
  | some _ =>
    match s.act (Space.step p) with
    | (.ok result, s') => (result, s')
    | (.error f, s') => (.error (.fault f), s')

/-- The place of the word that holds the byte at `pa`. -/
def wordIndex (pa : PhysicalAddress) : Fin 1024 :=
  ⟨(pa.offset .small).bytes / 4, by
    have := (pa.offset .small).bytes_lt; simp only [PageSize.bytes] at this; omega⟩

def step (s : Session) : Step → Except StepError Answer × Session
  | .boot => s.boot
  | .build => s.build
  | .install n => s.install n
  | .takeOver => s.takeOver
  | .setLargePages b =>
    (.ok .nothing,
      { s with machine := { s.machine with cpu := { s.machine.cpu with hasLargePages := b } } })
  | .status => (.ok (.status s.status), s)
  | .peek pa => s.answer (Machine.readWord (pa.page .small) (wordIndex pa)) .word
  | .poke pa w =>
    s.answer
      (do
        Machine.writeWord (pa.page .small) (wordIndex pa) w
        Machine.readWord (pa.page .small) (wordIndex pa))
      .word
  | .invalidate va => s.answer (Machine.invalidate (va.page .small)) fun _ => .nothing
  | .tableAt pa p => s.answer (Machine.tableStep (pa.page .small) p) .table
  | .slotAt pa n bits clear => s.answer (Machine.slotStep (pa.page .small) n bits clear) .slot
  | .windowEntries n => s.answer (Machine.windowEntries n) .entries
  | .pool p => s.poolStep p
  | .space p => s.spaceStep p

end Session

/-! ## What a step did -/

/-- The answer to a step with everything that it did to the machine: hardware calls, changed words,
log, and how the pool stands. -/
structure StepReport where
  answer : Except StepError Answer
  calls : List HardwareCall
  changes : List (PhysicalAddress × UInt32)
  live : Nat
  free : Nat
  taken : Nat
  returned : Nat
  log : List LogEvent

namespace Session

def report (s : Session) (p : Step) : StepReport × Session :=
  let (answer, s') := s.step p
  let before := s.machine
  let after := s'.machine
  ({ answer
     calls := after.calls.toList.drop before.calls.size
     changes := Ram.changes before.ram after.ram
     live := after.pool.live
     free := after.pool.free
     taken := after.taken
     returned := after.returned
     log := after.log.since before.log.events.size }, s')

/-- The reports of steps taken in order. -/
def reports (s : Session) : List Step → List StepReport
  | [] => []
  | p :: ps =>
    let (r, s') := s.report p
    r :: s'.reports ps

end Session

end Paging
