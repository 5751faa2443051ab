import Paging.Log
import Paging.Pool.Basic
import Paging.Session.Outcome

/-!
# Borrowing frames from a pool

A `Lending` is a pool together with the frames that a caller has borrowed from it, numbered in the
order in which they were handed out. A number can be given back once; after that it is spent, also
if the pool did not take the frame.
-/

namespace Paging

inductive PoolStep where
  | take
  /-- Takes up to `n` frames, as many as there are. -/
  | takeMany (n : Nat)
  /-- Gives back the frame with a number. -/
  | giveBack (number : Nat)
  /-- Gives back the frame that contains `pa`, borrowed or not. -/
  | release (pa : PhysicalAddress)
  | reserve (pa : PhysicalAddress)
  | isLive (pa : PhysicalAddress)
  | sameFrame (a b : PhysicalAddress)
  deriving DecidableEq

inductive PoolAnswer where
  | nothing
  | frame (number : Nat) (f : Frame)
  | frames (fs : List (Nat × Frame))
  | flag (b : Bool)
  deriving DecidableEq

structure Lending where
  pool : FramePool
  lent : Array (Option Frame) := #[]
  log : Log

/-- The answer to a step, the pool after it, and what the step logged. -/
structure PoolReport where
  answer : Except StepError PoolAnswer
  pool : FramePool
  log : List LogEvent

namespace Lending

/-- A new pool from which nothing has been borrowed. -/
def create (wordCount : Nat) (base : Frame) (frames : Nat) (threshold : Option LogLevel) :
    Except PoolRefusal Lending :=
  match FramePool.create wordCount base frames with
  | .ok pool =>
    let log : Log := ⟨threshold, #[]⟩
    .ok { pool, log := log.add (.poolReady base frames) }
  | .error e => .error e

/-- Borrows the lowest free frame. -/
def take (l : Lending) : Option (Nat × Frame) × Lending :=
  match l.pool.takeLowest? with
  | none => (none, l)
  | some (f, pool) =>
    (some (l.lent.size, f), ⟨pool, l.lent.push (some f), l.log.add (.frameTaken f)⟩)

/-- Borrows up to `n` frames; `taken` holds those before, last first. -/
def takeMany (l : Lending) (taken : List (Nat × Frame)) : Nat → List (Nat × Frame) × Lending
  | 0 => (taken.reverse, l)
  | n + 1 =>
    match l.take with
    | (none, l') => (taken.reverse, l')
    | (some t, l') => l'.takeMany (t :: taken) n

/-- Gives `f` back to the pool. -/
def release (l : Lending) (f : Frame) : Except StepError PoolAnswer × Lending :=
  match l.pool.release f with
  | .foreign => (.ok .nothing, { l with log := l.log.add (.foreignFrame f) })
  | .twice => (.error (.fault (.doubleFree f)), l)
  | .released pool => (.ok .nothing, { l with pool, log := l.log.add (.frameFreed f) })

def step (l : Lending) : PoolStep → Except StepError PoolAnswer × Lending
  | .take =>
    match l.take with
    | (none, l') => (.ok .nothing, l')
    | (some (n, f), l') => (.ok (.frame n f), l')
  | .takeMany n =>
    let (fs, l') := l.takeMany [] n
    (.ok (.frames fs), l')
  | .giveBack n =>
    match l.lent[n]? with
    | some (some f) => { l with lent := l.lent.setIfInBounds n none }.release f
    | _ => (.error (.missing .lentFrame), l)
  | .release pa => l.release (pa.page .small)
  | .reserve pa =>
    match l.pool.reserve? (pa.page .small) with
    | some pool =>
      (.ok (.flag true), { l with pool, log := l.log.add (.frameReserved (pa.page .small)) })
    | none => (.ok (.flag false), l)
  | .isLive pa => (.ok (.flag (l.pool.isLive (pa.page .small))), l)
  | .sameFrame a b => (.ok (.flag (a.page .small == b.page .small)), l)

def report (l : Lending) (p : PoolStep) : PoolReport × Lending :=
  let (answer, l') := l.step p
  (⟨answer, l'.pool, l'.log.since l.log.events.size⟩, l')

/-- The reports of steps taken in order. -/
def reports (l : Lending) : List PoolStep → List PoolReport
  | [] => []
  | p :: ps =>
    let (r, l') := l.report p
    r :: l'.reports ps

end Lending

end Paging
