import Mathlib.Data.List.Induction
import Paging.Proofs.Word
import Paging.Table.Step

/-!
# What a page table maps

An entry is made of a frame and twelve flags, and a present one is read as a frame and itself. The two are
inverse to each other (`WritesLeaf`, `ReadsBack`), whatever else the word of the flags says, and one entry
includes the flags of another if it has them bit by bit (`FlagsIncluded`). A table has forgotten how it was
written: each entry is the last value that was stored there since the table was last cleared (`lastStored`),
and the mappings are the present ones of these, in ascending order (`Shows`). That holds after any writes to
the empty table, and so after any steps.
-/

namespace Paging

namespace EntryBits

/-- What the mapping of `f` is, whatever flags are handed in. -/
structure WritesLeaf (f : Frame) (flags : EntryBits) : Prop where
  bits : (leaf f flags).bits = f.base.val ||| flags.bits &&& 0xFFF ||| 1
  mapping : (leaf f flags).mapping? = some (f, leaf f flags)
  included : (leaf f flags).includes flags
  /-- Bit 7 tells nothing from anything else here, and is one of the flags. -/
  bit7 : bit7Field.test (leaf f flags).bits = bit7Field.test flags.bits

/-- What is read from an entry writes it again. -/
structure ReadsBack (e : EntryBits) : Prop where
  absent : e.mapping? = none ↔ e.bits &&& 1 = 0
  present : ∀ f flags, e.mapping? = some (f, flags) → leaf f flags = e

/-- Including the flags of another entry is having its low twelve bits. -/
structure FlagsIncluded : Prop where
  iff_bits : ∀ e other : EntryBits, e.includes other ↔
    ∀ j < 12, other.bits.toNat.testBit j → e.bits.toNat.testBit j
  refl : ∀ e : EntryBits, e.includes e
  trans : ∀ e₁ e₂ e₃ : EntryBits, e₁.includes e₂ → e₂.includes e₃ → e₁.includes e₃

end EntryBits

/-- A change of a table. -/
inductive TableWrite where
  | set (i : EntryIndex) (e : EntryBits)
  /-- Assigns `e` through a reference to the entry. -/
  | assign (i : EntryIndex) (e : EntryBits)
  | clear (i : EntryIndex)
  | clearAll
  deriving DecidableEq

/-- What a write stores at entry `i`, if it is a write to that entry. -/
def TableWrite.storedAt? (i : EntryIndex) : TableWrite → Option EntryBits
  | set j e => if j = i then some e else none
  | assign j e => if j = i then some e else none
  | clear j => if j = i then some .absent else none
  | clearAll => none

/-- The last value stored at entry `i` since all entries were cleared. -/
def lastStored (ws : List TableWrite) (i : EntryIndex) : EntryBits :=
  ((ws.reverse.takeWhile (· ≠ .clearAll)).findSome? (·.storedAt? i)).getD .absent

/-- The writes of a step. -/
def TableStep.writes : TableStep → List TableWrite
  | get _ => []
  | set n pa flags => if h : n < 1024 then [.set ⟨n, h⟩ (.leaf (pa.page .small) flags)] else []
  | clear n => if h : n < 1024 then [.clear ⟨n, h⟩] else []
  | clearAll => [.clearAll]
  | entries => []

namespace PageTable

def write (t : PageTable) : TableWrite → PageTable
  | .set i e => t.set i e
  | .assign i e => t.modify i fun _ => e
  | .clear i => t.clear i
  | .clearAll => empty

def writeAll (t : PageTable) (ws : List TableWrite) : PageTable := ws.foldl write t

/-- What a table shows after the writes `ws`. -/
structure Shows (t : PageTable) (ws : List TableWrite) : Prop where
  get : ∀ i, t.get i = lastStored ws i
  mem_mappings : ∀ i e, (i, e) ∈ t.mappings ↔ e = lastStored ws i ∧ e.bits &&& 1 ≠ 0
  /-- No index comes twice. -/
  ascending : t.mappings.Pairwise (·.1 < ·.1)

end PageTable

/-! ## Entries -/

namespace EntryBits

theorem mapping?_leaf (f : Frame) (flags : EntryBits) : (leaf f flags).mapping? = some (f, leaf f flags) := by
  rw [mapping?, if_pos (present_leaf f flags), frame_leaf]

theorem testBit_flags (e : EntryBits) (j : Nat) :
    e.flags.bits.toNat.testBit j = (e.bits.toNat.testBit j && decide (j < 12)) := by
  have hmask : flagBits.toNat.testBit j = decide (j < 12) := Nat.testBit_two_pow_sub_one 12 j
  rw [flags, UInt32.toNat_and, Nat.testBit_and, hmask]

theorem includes_iff {e other : EntryBits} : e.includes other ↔
    ∀ j < 12, other.bits.toNat.testBit j → e.bits.toNat.testBit j := by
  rw [includes, beq_iff_eq]
  constructor
  · intro h j hj hother
    have hbit := congrArg (·.toNat.testBit j) h
    simpa [testBit_flags, hj, hother] using hbit
  · intro h
    apply Field.eq_of_testBit
    intro j _
    rw [UInt32.toNat_and, Nat.testBit_and, testBit_flags]
    by_cases hflag : other.bits.toNat.testBit j ∧ j < 12
    · simp [hflag, h j hflag.2 hflag.1]
    · rw [not_and_or, Bool.not_eq_true] at hflag
      rcases hflag with hclear | hhigh
      · simp [hclear]
      · simp [hhigh]

theorem flagsIncluded : FlagsIncluded where
  iff_bits _ _ := includes_iff
  refl _ := includes_iff.2 fun _ _ h => h
  trans _ _ _ h₁ h₂ := includes_iff.2 fun j hj h => includes_iff.1 h₁ j hj (includes_iff.1 h₂ j hj h)

/-- The bits below the frame are those of the flags, and the lowest is set. -/
theorem testBit_leaf (f : Frame) (flags : EntryBits) {j : Nat} (hj : j < 12) :
    (leaf f flags).bits.toNat.testBit j = (flags.bits.toNat.testBit j || decide (j = 0)) := by
  have hone : (1 : UInt32).toNat.testBit j = decide (j = 0) := by decide +revert
  have hlow : (leaf f flags).flags.bits.toNat.testBit j = (flags.flags.bits ||| 1).toNat.testBit j :=
    congrArg (·.toNat.testBit j) (flags_leaf f flags)
  rw [UInt32.toNat_or, Nat.testBit_or, testBit_flags, testBit_flags, hone] at hlow
  simpa [hj] using hlow

theorem writesLeaf (f : Frame) (flags : EntryBits) : WritesLeaf f flags where
  bits := by rw [bits_leaf, UInt32.or_assoc]
  mapping := mapping?_leaf f flags
  included := by
    rw [includes_iff]
    intro j hj h
    rw [testBit_leaf f flags hj, h, Bool.true_or]
  bit7 := by
    rw [Field.test_eq_testBit rfl, Field.test_eq_testBit rfl]
    exact (testBit_leaf f flags (by decide)).trans (Bool.or_false _)

/-- A present entry is the mapping that is read from it. -/
theorem leaf_of_present {e : EntryBits} (hp : e.present) : leaf e.frame e = e := by
  apply EntryBits.ext
  apply Field.eq_of_testBit
  intro j hj
  by_cases h12 : j < 12
  · rw [testBit_leaf e.frame e h12]
    by_cases h0 : j = 0
    · have hlowest : e.bits.toNat.testBit 0 := by rwa [present, Field.test_eq_testBit rfl] at hp
      rw [h0, hlowest, Bool.true_or]
    · simp [h0]
  · have hframe : frameField.get (leaf e.frame e).bits = frameField.get e.bits :=
      congrArg Page.number (frame_leaf e.frame e)
    have hbit := congrArg (·.testBit (j - 12)) hframe
    simp only [Field.testBit_get, frameField] at hbit
    rw [show 12 + (j - 12) = j by omega, decide_eq_true (show j - 12 < 20 by omega)] at hbit
    exact hbit

theorem readsBack (e : EntryBits) : e.ReadsBack where
  absent := by
    rw [mapping?, ← not_iff_not, ← ne_eq (_ &&& _), ← present_iff]
    simp
  present f flags h := by
    obtain ⟨hp, hread⟩ := Option.ite_none_right_eq_some.1 h
    cases hread
    exact leaf_of_present hp

end EntryBits

/-! ## Tables -/

namespace PageTable

theorem get_write (t : PageTable) (w : TableWrite) (i : EntryIndex) :
    (t.write w).get i = if w = .clearAll then .absent else (w.storedAt? i).getD (t.get i) := by
  cases w with
  | clearAll => exact get_empty i
  | _ j =>
    simp only [write, clear, modify, get_set, TableWrite.storedAt?]
    by_cases hj : j = i <;> simp [hj]

end PageTable

/-- After one more write, an entry holds what that stores, or what it held. -/
theorem lastStored_concat (ws : List TableWrite) (w : TableWrite) (i : EntryIndex) : lastStored (ws ++ [w]) i =
    if w = .clearAll then .absent else (w.storedAt? i).getD (lastStored ws i) := by
  rw [lastStored, List.reverse_append, List.reverse_singleton, List.singleton_append, List.takeWhile_cons]
  by_cases hw : w = .clearAll
  · simp [hw]
  · cases hstored : w.storedAt? i <;> simp [hw, hstored, lastStored]

namespace PageTable

theorem get_writeAll (ws : List TableWrite) (i : EntryIndex) : (empty.writeAll ws).get i = lastStored ws i := by
  -- Writes act from the first on, `lastStored` looks from the last one back: the last write is split off.
  induction ws using List.reverseRecOn with
  | nil => exact get_empty i
  | append_singleton ws w ih =>
    have hlast : empty.writeAll (ws ++ [w]) = (empty.writeAll ws).write w := by
      rw [writeAll, List.foldl_append]
      rfl
    rw [hlast, get_write, lastStored_concat, ih]

theorem shows_writeAll (ws : List TableWrite) : (empty.writeAll ws).Shows ws where
  get := get_writeAll ws
  mem_mappings i e := by
    rw [PageTable.mem_mappings, get_writeAll, EntryBits.present_iff]
  ascending := pairwise_mappings _

/-- A step leaves the table that its writes leave. -/
theorem step_writes (t : PageTable) (s : TableStep) : (t.step s).2 = t.writeAll s.writes := by
  cases s with
  | set n pa flags =>
    by_cases hn : n < 1024 <;> simp [step, checkIndex, TableStep.writes, hn, writeAll, write]
  | clear n =>
    by_cases hn : n < 1024 <;> simp [step, checkIndex, TableStep.writes, hn, writeAll, write]
  | get n => by_cases hn : n < 1024 <;> simp [step, checkIndex, TableStep.writes, hn, writeAll]
  | _ => rfl

theorem steps_writes (t : PageTable) (ss : List TableStep) :
    (t.steps ss).2 = t.writeAll (ss.flatMap TableStep.writes) := by
  induction ss generalizing t with
  | nil => rfl
  | cons s ss ih =>
    have happend : t.writeAll (s.writes ++ ss.flatMap TableStep.writes) =
      (t.writeAll s.writes).writeAll (ss.flatMap TableStep.writes) := List.foldl_append
    rw [List.flatMap_cons, happend, ← step_writes, ← ih]
    rfl

/-- **Entries and tables give back what was put into them.** -/
theorem gives_back : (∀ f flags, EntryBits.WritesLeaf f flags) ∧ (∀ e : EntryBits, e.ReadsBack) ∧
    EntryBits.FlagsIncluded ∧ (∀ ws, (empty.writeAll ws).Shows ws) ∧
    ∀ ss : List TableStep, (empty.steps ss).2.Shows (ss.flatMap TableStep.writes) := by
  refine ⟨EntryBits.writesLeaf, EntryBits.readsBack, EntryBits.flagsIncluded, shows_writeAll, ?_⟩
  intro ss
  rw [steps_writes]
  exact shows_writeAll _

/-- What was stored before the table was cleared is gone. -/
example : lastStored [.set 3 ⟨5⟩, .clearAll, .assign 4 ⟨7⟩] 3 = .absent := by decide

end PageTable

end Paging
