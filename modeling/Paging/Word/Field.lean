/-!
# Bit fields of a 32-bit word

A `Field` is a run of neighbouring bits. `get` reads its number, `put` replaces it and leaves every
other bit alone. The laws that everything above rests on stand at the end: a field reads back what was
put (`get_put`), putting back what was read changes nothing (`put_get`), a disjoint field does not
notice (`get_put_of_disjoint`), and two disjoint writes may be swapped (`put_comm`).
-/

namespace Paging

/-- The bits `low … low + width - 1` of a 32-bit word. -/
structure Field where
  low : Nat
  width : Nat
  fits : low + width ≤ 32 := by decide
  deriving DecidableEq

namespace Field

/-- How many numbers the field can hold. -/
def size (f : Field) : Nat := 1 <<< f.width

/-- The word that has exactly the bits of the field set. -/
def mask (f : Field) : UInt32 := UInt32.ofNat ((f.size - 1) <<< f.low)

/-- The number that the field holds in `w`. -/
def get (f : Field) (w : UInt32) : Nat := w.toNat >>> f.low % f.size

/-- `w` with the low `width` bits of `v` in the field. -/
def put (f : Field) (w : UInt32) (v : Nat) : UInt32 :=
  (w &&& ~~~f.mask) ||| UInt32.ofNat ((v % f.size) <<< f.low)

/-- Whether the field holds anything but zero; for a single bit, whether it is set. -/
def test (f : Field) (w : UInt32) : Bool := f.get w != 0

/-- `put`, for the values that fit. -/
def put? (f : Field) (w : UInt32) (v : Nat) : Option UInt32 :=
  if v < f.size then some (f.put w v) else none

/-- No bit belongs to both fields. -/
def Disjoint (f g : Field) : Prop := f.low + f.width ≤ g.low ∨ g.low + g.width ≤ f.low

instance (f g : Field) : Decidable (Disjoint f g) := inferInstanceAs (Decidable (_ ∨ _))

/-! ## Words bit by bit -/

theorem testBit_of_ge (w : UInt32) {j : Nat} (h : 32 ≤ j) : w.toNat.testBit j = false :=
  Nat.testBit_lt_two_pow (Nat.lt_of_lt_of_le w.toNat_lt (Nat.pow_le_pow_right (by decide) h))

/-- Words with the same 32 bits are equal. -/
theorem eq_of_testBit {a b : UInt32} (h : ∀ j < 32, a.toNat.testBit j = b.toNat.testBit j) :
    a = b := by
  apply UInt32.toNat.inj
  apply Nat.eq_of_testBit_eq
  intro j
  by_cases hj : j < 32
  · exact h j hj
  · rw [testBit_of_ge a (by omega), testBit_of_ge b (by omega)]

theorem testBit_not (w : UInt32) {j : Nat} (hj : j < 32) :
    (~~~w).toNat.testBit j = !w.toNat.testBit j := by
  have hlt := w.toNat_lt
  have h := Nat.testBit_two_pow_sub_succ (x := w.toNat) (n := 32) hlt j
  have hsub : UInt32.size - 1 - w.toNat = 2 ^ 32 - (w.toNat + 1) := by simp [UInt32.size]
  rw [UInt32.toNat_not, hsub, h]
  simp [hj]

theorem testBit_mask (f : Field) (j : Nat) :
    f.mask.toNat.testBit j = (decide (f.low ≤ j) && decide (j < f.low + f.width)) := by
  have hf := f.fits
  rw [mask, size, Nat.one_shiftLeft, UInt32.toNat_ofNat', Nat.testBit_mod_two_pow,
    Nat.testBit_shiftLeft, Nat.testBit_two_pow_sub_one]
  by_cases h1 : f.low ≤ j <;> by_cases h2 : j < f.low + f.width <;> simp [h1, h2] <;> omega

theorem testBit_mod_size (f : Field) (v j : Nat) :
    (v % f.size).testBit j = (decide (j < f.width) && v.testBit j) := by
  rw [size, Nat.one_shiftLeft, Nat.testBit_mod_two_pow]

theorem testBit_of_lt_size {f : Field} {v j : Nat} (h : v < f.size) (hj : f.width ≤ j) :
    v.testBit j = false := by
  rw [size, Nat.one_shiftLeft] at h
  exact Nat.testBit_lt_two_pow (Nat.lt_of_lt_of_le h (Nat.pow_le_pow_right (by decide) hj))

theorem testBit_get (f : Field) (w : UInt32) (j : Nat) :
    (f.get w).testBit j = (decide (j < f.width) && w.toNat.testBit (f.low + j)) := by
  rw [get, testBit_mod_size, Nat.testBit_shiftRight]

/-- Inside the field the bits come from the value, outside they stay. -/
theorem testBit_put (f : Field) (w : UInt32) (v j : Nat) :
    (f.put w v).toNat.testBit j =
      if f.low ≤ j ∧ j < f.low + f.width then v.testBit (j - f.low) else w.toNat.testBit j := by
  have hf := f.fits
  by_cases hj : j < 32
  · rw [put, UInt32.toNat_or, UInt32.toNat_and, Nat.testBit_or, Nat.testBit_and, testBit_not _ hj,
      testBit_mask, UInt32.toNat_ofNat', Nat.testBit_mod_two_pow, Nat.testBit_shiftLeft,
      testBit_mod_size]
    by_cases h1 : f.low ≤ j <;> by_cases h2 : j < f.low + f.width <;> simp [h1, h2, hj] <;> omega
  · rw [testBit_of_ge _ (by omega), testBit_of_ge w (by omega), if_neg (by omega)]

/-! ## The laws of `get` and `put` -/

theorem size_pos (f : Field) : 0 < f.size := by
  rw [size, Nat.one_shiftLeft]; exact Nat.two_pow_pos f.width

theorem get_lt (f : Field) (w : UInt32) : f.get w < f.size := Nat.mod_lt _ f.size_pos

/-- A field reads back the value that was put. -/
theorem get_put (f : Field) (w : UInt32) {v : Nat} (h : v < f.size) :
    f.get (f.put w v) = v := by
  apply Nat.eq_of_testBit_eq
  intro j
  rw [testBit_get, testBit_put]
  by_cases hj : j < f.width
  · rw [if_pos (by omega)]; simp [hj]
  · have hv : v.testBit j = false := testBit_of_lt_size h (by omega)
    simp [hj, hv]

/-- Putting back the value that is there changes nothing. -/
theorem put_get (f : Field) (w : UInt32) : f.put w (f.get w) = w := by
  apply eq_of_testBit
  intro j _
  rw [testBit_put]
  by_cases hj : f.low ≤ j ∧ j < f.low + f.width
  · have hshift : f.low + (j - f.low) = j := by omega
    rw [if_pos hj, testBit_get, hshift, decide_eq_true (by omega), Bool.true_and]
  · rw [if_neg hj]

/-- Putting one field leaves a disjoint one as it was. -/
theorem get_put_of_disjoint {f g : Field} (h : Disjoint f g) (w : UInt32) (v : Nat) :
    g.get (f.put w v) = g.get w := by
  apply Nat.eq_of_testBit_eq
  intro j
  rw [testBit_get, testBit_get, testBit_put]
  by_cases hj : j < g.width
  · rw [if_neg (by unfold Disjoint at h; omega)]
  · simp [hj]

/-- Writes to disjoint fields may be swapped. -/
theorem put_comm {f g : Field} (h : Disjoint f g) (w : UInt32) (u v : Nat) :
    g.put (f.put w u) v = f.put (g.put w v) u := by
  apply eq_of_testBit
  intro j _
  simp only [testBit_put]
  by_cases hf : f.low ≤ j ∧ j < f.low + f.width
  · have hg : ¬(g.low ≤ j ∧ j < g.low + g.width) := by unfold Disjoint at h; omega
    simp [hf, hg]
  · simp [hf]

end Field

end Paging
