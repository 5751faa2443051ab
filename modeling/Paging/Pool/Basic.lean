import Paging.Refusal
import Paging.Word.Field

/-!
# The frame pool

A pool manages `frames` neighbouring frames from `base` on, with one bit for each: a set bit means
that the frame is live, that is handed out or reserved. The bits behind the last frame are set for
good, so that the search for a clear bit needs no bound. `takeLowest?` hands out the lowest free
frame, `reserve?` takes one that the caller names, `release` gives one back.
-/

namespace Paging

structure FramePool where
  base : Frame
  frames : Nat
  live : Nat
  words : Array UInt32
  deriving DecidableEq

/-- What giving a frame back does. -/
inductive Release where
  /-- The frame is none of the pool's; nothing changes. -/
  | foreign
  /-- The frame was free already. -/
  | twice
  | released (pool : FramePool)

namespace FramePool

/-- Bits in one word of the bitmap. -/
def wordBits : Nat := 32

/-- Bit `j` of a bitmap word. -/
def bit (j : Fin 32) : Field := ⟨j.val, 1, by omega⟩

/-- Word `w` of the bitmap of a pool of `frames` free frames. -/
def initialWord (frames w : Nat) : UInt32 :=
  let first := w * wordBits
  if frames ≤ first then 0xFFFFFFFF
  else if frames - first < wordBits then 0xFFFFFFFF <<< UInt32.ofNat (frames - first)
  else 0

/-- A pool of `frames` free frames from `base` on, with a bitmap of `wordCount` words. -/
def create (wordCount : Nat) (base : Frame) (frames : Nat) : Except PoolRefusal FramePool :=
  if frames > wordCount * wordBits then .error (.capacityExceeded frames (wordCount * wordBits))
  else if base.number * 4096 + frames * 4096 > UInt32.size then .error (.windowOverflow base.base)
  else .ok ⟨base, frames, 0, Array.ofFn fun w : Fin wordCount => initialWord frames w⟩

/-- Frames that are neither handed out nor reserved. -/
def free (p : FramePool) : Nat := p.frames - p.live

/-- The place of `f` in the pool, if it is one of the pool's frames. -/
def place? (p : FramePool) (f : Frame) : Option Nat :=
  if p.base.number ≤ f.number ∧ f.number - p.base.number < p.frames then
    some (f.number - p.base.number)
  else none

/-- The frame at place `i`. -/
def frameAt (p : FramePool) (i : Nat) : Frame := Page.ofNumber (p.base.number + i)

/-- Whether the bit of place `i` is set. -/
def marked (p : FramePool) (i : Nat) : Bool :=
  (bit ⟨i % 32, Nat.mod_lt _ (by decide)⟩).test (p.words.getD (i / 32) 0)

/-- Sets or clears the bit of place `i` and counts along. -/
def mark (p : FramePool) (i : Nat) (live : Bool) : FramePool :=
  { p with
    live := if live then p.live + 1 else p.live - 1
    words := p.words.modify (i / 32) fun w =>
      (bit ⟨i % 32, Nat.mod_lt _ (by decide)⟩).put w live.toNat }

def isLive (p : FramePool) (f : Frame) : Bool :=
  match p.place? f with
  | some i => p.marked i
  | none => false

/-- The lowest clear bit of a word. -/
def lowestClear? (w : UInt32) : Option (Fin 32) := (List.finRange 32).find? fun j => !(bit j).test w

/-- The lowest place whose bit is clear, in the first word that has one. -/
def lowestFree? (p : FramePool) : Option Nat := do
  let w ← p.words.findIdx? (· != 0xFFFFFFFF)
  let j ← lowestClear? (p.words.getD w 0)
  return w * wordBits + j.val

/-- Hands out the lowest free frame. -/
def takeLowest? (p : FramePool) : Option (Frame × FramePool) :=
  p.lowestFree?.map fun i => (p.frameAt i, p.mark i true)

/-- Takes `f` out of circulation; `none` if it is foreign or live. -/
def reserve? (p : FramePool) (f : Frame) : Option FramePool :=
  match p.place? f with
  | some i => if p.marked i then none else some (p.mark i true)
  | none => none

/-- Takes `f` back. -/
def release (p : FramePool) (f : Frame) : Release :=
  match p.place? f with
  | none => .foreign
  | some i => if p.marked i then .released (p.mark i false) else .twice

end FramePool

end Paging
