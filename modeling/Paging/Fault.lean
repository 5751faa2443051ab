import Paging.Address.Text

/-!
# Faults

A `Fault` ends the operation that meets it: the machine refuses an access, or a caller breaks a rule
that the library checks. Refusals that a caller is meant to handle are values of their own
(`MapRefusal`, `BootRefusal`, `PoolRefusal`) and no faults.

Sums, products and indices are checked where they are formed: `Address.add`, `addBelow`, `mulBelow` and
`checkIndex` give the figure, or the fault of one that is too large.
-/

namespace Paging

inductive Fault where
  /-- A sum grew past its word, as an address does past the top of the address space. -/
  | addOverflow
  | mulOverflow
  /-- A value was put into a field that holds at most `max`. -/
  | fieldOverflow (max : Nat)
  /-- A page directory was placed off a frame boundary. -/
  | directoryMisaligned
  /-- A table has 1024 entries. -/
  | indexOutOfRange
  /-- A frame was given back that was not handed out. -/
  | doubleFree (frame : Frame)
  /-- The self-map slot has no table of its own. -/
  | selfMapTable
  /-- No memory answers at this address. -/
  | busError (at_ : PhysicalAddress)
  /-- A window was used before paging was turned on. -/
  | pagingOff
  /-- Paging was turned on without a directory. -/
  | rootMissing
  | directoryEntryAbsent (va : VirtualAddress)
  | largePageInWindow (va : VirtualAddress)
  | tableEntryAbsent (va : VirtualAddress)
  deriving DecidableEq

namespace Fault

def message : Fault → String
  | addOverflow => "attempt to add with overflow"
  | mulOverflow => "attempt to multiply with overflow"
  | fieldOverflow max => "value out of bounds [0, " ++ toString max ++ "]"
  | directoryMisaligned => "page directory base must be 4K-aligned"
  | indexOutOfRange => "assertion failed: (v as usize) < ENTRIES_PER_TABLE"
  | doubleFree f => "double free of frame " ++ f.base.display
  | selfMapTable => "slot 1023 is the directory itself"
  | busError pa => "bus error at " ++ pa.display
  | pagingOff => "paging is off"
  | rootMissing => "paging enabled without CR3"
  | directoryEntryAbsent va => "page fault at " ++ va.display ++ ": directory entry absent"
  | largePageInWindow va => "page fault at " ++ va.display ++ ": large page in the window"
  | tableEntryAbsent va => "page fault at " ++ va.display ++ ": table entry absent"

end Fault

/-! ## Checked figures -/

/-- `a + n`; running past the top of the address space is a fault. -/
def Address.add {k : AddressKind} (a : Address k) (n : UInt32) : Except Fault (Address k) :=
  match a.add? n with
  | some b => .ok b
  | none => .error .addOverflow

/-- `a + b`, which must stay below `size`. -/
def addBelow (size a b : Nat) : Except Fault Nat := if a + b < size then .ok (a + b) else .error .addOverflow

/-- `a * b`, which must stay below `size`. -/
def mulBelow (size a b : Nat) : Except Fault Nat := if a * b < size then .ok (a * b) else .error .mulOverflow

/-- The index `n`, which must be below 1024. -/
def checkIndex (n : Nat) : Except Fault (Fin 1024) :=
  if h : n < 1024 then .ok ⟨n, h⟩ else .error .indexOutOfRange

end Paging
