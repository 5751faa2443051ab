import Paging.Fault
import Paging.Table.Basic

/-!
# Working on a page table step by step

A `TableStep` is one access to a table. Indices arrive unchecked; one that is not below 1024 is a
fault, and the table stays as it was.
-/

namespace Paging

inductive TableStep where
  | get (index : Nat)
  /-- Writes the mapping of the frame that contains `pa`, then reads it back. -/
  | set (index : Nat) (pa : PhysicalAddress) (flags : EntryBits)
  | clear (index : Nat)
  | clearAll
  | entries
  deriving DecidableEq

inductive TableAnswer where
  | done
  | entry (e : EntryBits)
  | entries (es : List (EntryIndex × EntryBits))
  deriving DecidableEq

namespace PageTable

/-- The answer to a step and the table after it. -/
def step (t : PageTable) : TableStep → Except Fault TableAnswer × PageTable
  | .get n =>
    match checkIndex n with
    | .ok i => (.ok (.entry (t.get i)), t)
    | .error f => (.error f, t)
  | .set n pa flags =>
    match checkIndex n with
    | .ok i =>
      let t' := t.set i (.leaf (pa.page .small) flags)
      (.ok (.entry (t'.get i)), t')
    | .error f => (.error f, t)
  | .clear n =>
    match checkIndex n with
    | .ok i => (.ok .done, t.clear i)
    | .error f => (.error f, t)
  | .clearAll => (.ok .done, empty)
  | .entries => (.ok (.entries t.mappings), t)

/-- The answers to steps taken in order, and the table after them. -/
def steps (t : PageTable) : List TableStep → List (Except Fault TableAnswer) × PageTable
  | [] => ([], t)
  | s :: ss =>
    let (a, t') := t.step s
    let (as, t'') := t'.steps ss
    (a :: as, t'')

end PageTable

end Paging
