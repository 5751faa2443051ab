import Paging.Proofs.Word

/-!
# Addresses as pages and offsets

For either page size, an address is a page and an offset in exactly one way. `splits_uniquely` says so for
all addresses, pages and offsets: the parts of an address join to the address (`HasParts`), a page and an
offset join to the address that splits into them (`JoinsWith`), the parts are ordered as the address is, and
pages are counted from 0 to the topmost, which has no next one (`IsNumbered`). The parts are also what masks
and shifts of the word give. The two sizes fit each other: the slot, the entry and the offset of a virtual
address are its 4 MiB page and the rest of it (`HasLevels`).
-/

namespace Paging

variable {k : AddressKind} {s : PageSize}

/-- What the parts of `a` are. -/
structure Address.HasParts (a : Address k) (s : PageSize) : Prop where
  joins : (a.page s).join (a.offset s) = a
  offset_lt : (a.offset s).bytes < s.bytes
  aligned : s.bytes ∣ (a.page s).base.val.toNat
  base : (a.page s).base = a.roundDown s
  /-- A page is the upper bits of the word, an offset the lower ones. -/
  bits : (a.page s).number = (a.val >>> UInt32.ofNat s.shift).toNat ∧
    (a.offset s).bytes = (a.val &&& s.offsetMask).toNat
  /-- There is a page that starts at `a` exactly if `a` is a multiple of the page size. -/
  ofAligned : ((Page.ofAligned? a : Option (Page k s)).isSome ↔ s.bytes ∣ a.val.toNat) ∧
    ∀ p : Page k s, Page.ofAligned? a = some p ↔ p.base = a

/-- What a page and an offset join to. -/
structure Page.JoinsWith (p : Page k s) (o : Offset s) : Prop where
  /-- The sum is one of numbers: it does not carry. -/
  sum : (p.join o).val.toNat = p.base.val.toNat + o.bytes
  bits : (p.join o).val = p.base.val ||| UInt32.ofNat o.bytes
  split : (p.join o).split s = (p, o)

/-- The place of `p` among the pages of its size. -/
structure Page.IsNumbered (p : Page k s) : Prop where
  ofNumber : Page.ofNumber p.number = p
  /-- Pages are ordered as their first addresses are. -/
  le_iff : ∀ q : Page k s, p ≤ q ↔ p.base ≤ q.base
  next_eq_none : p.next? = none ↔ ∀ q : Page k s, q ≤ p
  next_eq_some : ∀ q, p.next? = some q ↔ q.number = p.number + 1
  /-- It starts one page size further up, if that is an address. -/
  next_eq : p.next? = (p.base.add? (UInt32.ofNat s.bytes)).map (·.page s)

/-- How the slot and the entry of a virtual address belong to its pages. -/
structure Address.HasLevels (va : VirtualAddress) : Prop where
  small : (va.page .small).number = 1024 * va.slotIndex.val + va.entryIndex.val
  large : (va.page .large).number = va.slotIndex.val
  sum : va.val.toNat = va.slotIndex.val * 2 ^ 22 + va.entryIndex.val * 2 ^ 12 + (va.offset .small).bytes
  /-- Slot and entry are cut out of the word, and fit into 16 bits. -/
  bits : va.slotIndex.val = (va.val >>> 22).toUInt16.toNat ∧
    va.entryIndex.val = (va.val >>> 12 &&& 0x3FF).toUInt16.toNat

/-- How addresses of one kind split into pages of one size and offsets. -/
structure SplitsUniquely (k : AddressKind) (s : PageSize) : Prop where
  parts : ∀ a : Address k, a.HasParts s
  joins : ∀ (p : Page k s) (o : Offset s), p.JoinsWith o
  offsets : ∀ n (o : Offset s), Offset.ofBytes? n = some o ↔ n < s.bytes ∧ o.bytes = n
  /-- Addresses are ordered by page, and in a page by offset. -/
  le_iff : ∀ a b : Address k, a ≤ b ↔
    a.page s ≠ b.page s ∧ a.page s ≤ b.page s ∨ a.page s = b.page s ∧ a.offset s ≤ b.offset s
  numbers : ∀ p : Page k s, p.IsNumbered
  /-- A number past the last page loses its upper bits. -/
  ofNumber : ∀ n : UInt32, (Page.ofNumber n.toNat : Page k s).number = n.toNat % 2 ^ (32 - s.shift) ∧
    (Page.ofNumber n.toNat : Page k s).base.val = n <<< UInt32.ofNat s.shift

/-! ## Masks and shifts -/

namespace PageSize

theorem pageCount_eq_two_pow (s : PageSize) : s.pageCount = 2 ^ (32 - s.shift) := by cases s <;> rfl

end PageSize

/-! ## Splitting an address -/

namespace Address

theorem ofAligned?_eq_some_iff {a : Address k} {p : Page k s} : Page.ofAligned? a = some p ↔ p.base = a := by
  unfold Page.ofAligned?
  constructor
  · intro h
    obtain ⟨ha, hp⟩ := Option.ite_none_right_eq_some.1 h
    obtain rfl := Option.some.inj hp
    exact base_page_of_isAligned ha
  · rintro rfl
    rw [if_pos p.isAligned_base, Page.page_base]

theorem isSome_ofAligned?_iff {a : Address k} :
    (Page.ofAligned? a : Option (Page k s)).isSome ↔ s.bytes ∣ a.val.toNat := by
  rw [← isAligned_iff_dvd, Page.ofAligned?]
  cases a.isAligned s <;> simp

theorem hasParts (a : Address k) : a.HasParts s where
  joins := Page.join_page_offset a
  offset_lt := (a.offset s).bytes_lt
  aligned := isAligned_iff_dvd.1 (a.page s).isAligned_base
  base := base_page a
  bits := ⟨(PageSize.toNat_shiftRight s a.val).symm, (PageSize.toNat_and_offsetMask s a.val).symm⟩
  ofAligned := ⟨isSome_ofAligned?_iff, fun _ => ofAligned?_eq_some_iff⟩

/-- Which of two addresses is lower is decided by their pages, or else by their offsets. -/
theorem le_iff_page_offset (a b : Address k) : a ≤ b ↔
    a.page s ≠ b.page s ∧ a.page s ≤ b.page s ∨ a.page s = b.page s ∧ a.offset s ≤ b.offset s := by
  have hle : a ≤ b ↔ a.val.toNat ≤ b.val.toNat := UInt32.le_iff_toNat_le
  have hpage : a.page s ≤ b.page s ↔ a.val.toNat / s.bytes ≤ b.val.toNat / s.bytes := Iff.rfl
  have hoffset : a.offset s ≤ b.offset s ↔ a.val.toNat % s.bytes ≤ b.val.toNat % s.bytes := Iff.rfl
  rw [hle, hpage, hoffset, ne_eq, Page.ext_iff]
  simp only [page]
  cases s <;> simp only [PageSize.bytes] <;> omega

end Address

/-! ## Joining a page and an offset -/

namespace Page

theorem joinsWith (p : Page k s) (o : Offset s) : p.JoinsWith o where
  sum := by rw [toNat_join, toNat_base]
  bits := val_join p o
  split := Prod.ext (page_join p o) (offset_join p o)

/-! ## Counting pages -/

theorem number_ofNumber (n : Nat) : (ofNumber n : Page k s).number = n % 2 ^ (32 - s.shift) := by
  rw [← PageSize.pageCount_eq_two_pow]
  rfl

theorem base_ofNumber (n : UInt32) : (ofNumber n.toNat : Page k s).base.val = n <<< UInt32.ofNat s.shift := by
  apply UInt32.toNat_inj.1
  rw [toNat_base, number_ofNumber, UInt32.toNat_shiftLeft, PageSize.toNat_shift, Nat.shiftLeft_eq,
    PageSize.bytes_eq_two_pow]
  cases s <;> simp only [PageSize.shift] <;> omega

theorem next?_eq_some_iff {p q : Page k s} : p.next? = some q ↔ q.number = p.number + 1 := by
  have hq := q.number_lt
  rw [next?, advance?]
  by_cases h : p.number + 1 < s.pageCount
  · rw [dif_pos h, Option.some.injEq, eq_comm, Page.ext_iff]
  · rw [dif_neg h]
    constructor
    · intro hnone
      cases hnone
    · intro hnext
      omega

theorem next?_eq_none_iff {p : Page k s} : p.next? = none ↔ ∀ q : Page k s, q ≤ p := by
  rw [next?, advance?]
  by_cases h : p.number + 1 < s.pageCount
  · rw [dif_pos h]
    constructor
    · intro hnone
      cases hnone
    · intro htop
      exact absurd (htop ⟨p.number + 1, h⟩) (Nat.not_succ_le_self p.number)
  · rw [dif_neg h]
    refine iff_of_true rfl ?_
    intro q
    have hq := q.number_lt
    show q.number ≤ p.number
    omega

theorem isNumbered (p : Page k s) : p.IsNumbered where
  ofNumber := Page.ext (Nat.mod_eq_of_lt p.number_lt)
  le_iff q := by
    have hle : p.base ≤ q.base ↔ p.base.val.toNat ≤ q.base.val.toNat := UInt32.le_iff_toNat_le
    rw [hle, toNat_base, toNat_base]
    exact (Nat.mul_le_mul_right_iff s.bytes_pos).symm
  next_eq_none := next?_eq_none_iff
  next_eq_some _ := next?_eq_some_iff
  next_eq := by
    have hnext := advance?_eq_add? p (n := 1) (by rw [Nat.one_mul]; exact s.bytes_lt)
    rwa [Nat.one_mul] at hnext

end Page

/-! ## Slot, entry and offset -/

theorem Address.hasLevels (va : VirtualAddress) : va.HasLevels where
  small := by rw [number_page, Nat.mul_comm]
  large := rfl
  sum := by
    simp only [slotIndex, entryIndex, offset, PageSize.bytes]
    omega
  bits := ⟨va.val_slotIndex, va.val_entryIndex⟩

theorem Offset.ofBytes?_eq_some_iff {n : Nat} {o : Offset s} :
    Offset.ofBytes? n = some o ↔ n < s.bytes ∧ o.bytes = n := by
  have ho := o.bytes_lt
  rw [ofBytes?]
  by_cases h : n < s.bytes
  · rw [dif_pos h, Option.some.injEq, Offset.ext_iff, eq_comm, and_iff_right h]
  · rw [dif_neg h]
    simp [h]

/-- **An address is a page and an offset in exactly one way**, whichever the size of the page, and the two
sizes belong to the two levels of the tables. -/
theorem splits_uniquely : (∀ k s, SplitsUniquely k s) ∧ ∀ va : VirtualAddress, va.HasLevels := by
  refine ⟨?_, Address.hasLevels⟩
  intro k s
  exact {
    parts := Address.hasParts
    joins := Page.joinsWith
    offsets := fun _ _ => Offset.ofBytes?_eq_some_iff
    le_iff := Address.le_iff_page_offset
    numbers := Page.isNumbered
    ofNumber := fun n => ⟨Page.number_ofNumber n.toNat, Page.base_ofNumber n⟩ }

/-- The topmost address is the last byte of the last page. -/
example : (Address.mk 0xFFFFFFFF : VirtualAddress).split .large = (Page.ofNumber 1023, ⟨0x3FFFFF, by decide⟩) ∧
    (Page.ofNumber 1023 : Page .virtual .large).next? = none := by decide

end Paging
