import Paging.Proofs.Invalidation
import Paging.Proofs.Translation

/-!
# The rights that the processor enforces

A translation shows the flags of the word that ends the walk. The processor combines the rights of both
levels: what a program may do with a small page, the slot and the entry must grant. A table that was made
on demand is linked with all rights, so that its entries alone decide; the table of boot is linked for
the supervisor only.

`Holding.GrantsRights` puts the two side by side. In every region but the first, and for every page that
is not shown as open to user code, the processor enforces what is shown (`reported`, `mapped`). In the
first region it never lets user code in, although an entry there may say so (`first`): a page that was
mapped for user code there is not open to it (`first_region_denies_user`).
-/

namespace Paging

/-- What a program may do with a page. -/
structure Rights where
  writable : Bool
  user : Bool
  deriving DecidableEq

namespace Rights

/-- The rights that one word of a walk grants. -/
def ofWord (w : UInt32) : Rights := ⟨w &&& 0x02 != 0, w &&& 0x04 != 0⟩

/-- What both grant. -/
def meet (r s : Rights) : Rights := ⟨r.writable && s.writable, r.user && s.user⟩

end Rights

/-- The rights that a walk leaves: those that each of its words grants. -/
def Walk.rights? : Walk → Option Rights
  | large slot => some (.ofWord slot)
  | small slot entry => some ((Rights.ofWord slot).meet (.ofWord entry))
  | slotAbsent | entryAbsent _ | busError _ => none

namespace Holding

/-- The rights that the processor enforces for `va`, with the directory in `root`. -/
def rights? (u : Holding) (root : Frame) (va : VirtualAddress) : Option Rights :=
  (u.session.machine.ram.walk root va).rights?

/-- What the flags of translations and mappings say about the rights that are enforced. `root` is the
frame of the directory. -/
structure GrantsRights (u : Holding) (root : Frame) : Prop where
  cr3 : u.session.machine.cpu.root = some root
  /-- What a translation shows is enforced, but for user access to the first region. -/
  reported : ∀ va pa flags, va.val.toNat < 0xFFC00000 →
    u.answer (.space (.translate va)) = .ok (.translation pa flags) →
    0x400000 ≤ va.val.toNat ∨ flags.userAccess = false →
    u.rights? root va = some ⟨flags.writable, flags.userAccess⟩
  /-- The first region is for the supervisor, whatever its translations show. -/
  first : ∀ va pa flags, va.val.toNat < 0x400000 →
    u.answer (.space (.translate va)) = .ok (.translation pa flags) →
    u.rights? root va = some ⟨flags.writable, false⟩
  /-- Every address of a page that was mapped has the rights that were asked for, with the same
  exception. -/
  mapped : ∀ va pa flags, u.answer (.space (.map va pa flags)) = .ok .nothing →
    0x400000 ≤ va.val.toNat ∨ flags.userAccess = false → ∀ vb, vb.page .small = va.page .small →
    (u.next (.space (.map va pa flags))).rights? root vb = some ⟨flags.writable, flags.userAccess⟩

end Holding

/-! ## The rights of one word -/

/-- A field of one bit, as the processor tests it. -/
theorem Field.test_eq_bne {f : Field} (hf : f.width = 1) {m : UInt32} (hm : m.toNat = 2 ^ f.low)
    (w : UInt32) : f.test w = (w &&& m != 0) := by
  have h := and_bit_eq_zero_iff w hm
  rw [test_eq_testBit hf]
  cases hb : w.toNat.testBit f.low with
  | false => simp [h.2 hb]
  | true =>
    have hne : w &&& m ≠ 0 := by simp [h, hb]
    simp [hne]

namespace Rights

/-- The rights of an entry are two of its flags. -/
theorem ofWord_bits (e : EntryBits) : ofWord e.bits = ⟨e.writable, e.userAccess⟩ := by
  rw [ofWord, ← Field.test_eq_bne (f := EntryBits.writableField) rfl rfl,
    ← Field.test_eq_bne (f := EntryBits.userField) rfl rfl]
  rfl

/-- Rights lie below the frame. -/
theorem ofWord_and (w : UInt32) : ofWord (w &&& 0xFFF) = ofWord w := by
  rw [ofWord, ofWord, UInt32.and_assoc, UInt32.and_assoc]
  rfl

/-- The flags of an entry keep its rights. -/
theorem ofWord_flags (e : EntryBits) : ofWord e.bits = ⟨e.flags.writable, e.flags.userAccess⟩ :=
  (ofWord_and e.bits).symm.trans (ofWord_bits e.flags)

/-- An entry grants the rights of the flags that it was made from. -/
theorem ofWord_leaf (f : Frame) (flags : EntryBits) :
    ofWord (EntryBits.leaf f flags).bits = ofWord flags.bits := by
  have hw : (EntryBits.leaf f flags).writable = flags.flags.writable := by
    rw [EntryBits.writable, EntryBits.leaf, EntryBits.withFrame, Field.test_put_of_disjoint (by decide)]
    exact Field.test_put_of_disjoint (by decide) _ _
  have hu : (EntryBits.leaf f flags).userAccess = flags.flags.userAccess := by
    rw [EntryBits.userAccess, EntryBits.leaf, EntryBits.withFrame, Field.test_put_of_disjoint (by decide)]
    exact Field.test_put_of_disjoint (by decide) _ _
  rw [ofWord_flags flags, ofWord_bits, hw, hu]

theorem ofWord_base_or (f : Frame) {c : UInt32} (hc : c.toNat < 4096) :
    ofWord (f.base.val ||| c) = ofWord c := by
  rw [← ofWord_and, Page.base_or_and f hc]

end Rights

namespace Tables

variable {t : Tables} {va vb : VirtualAddress} {pa : PhysicalAddress} {flags : EntryBits} {f : Frame}

/-! ## The rights of a walk -/

/-- Only the link of the first slot withholds a right. -/
theorem Sound.rights_link (h : t.Sound) {i : SlotIndex} (hi : i ≠ selfMapSlot) (hf : t.table? i = some f) :
    Rights.ofWord (t.slot i).bits = ⟨true, i ≠ 0⟩ := by
  have hshape := h.shape i
  rw [table?] at hf
  generalize t.slot i = e at hshape hf ⊢
  cases hshape with
  | selfMap => exact absurd rfl hi
  | absent | large => simp at hf
  | bootTable g =>
    rw [DirEntry.bits_link_supervisorRw, Rights.ofWord_base_or g (by decide)]
    decide
  | table h0 hs g =>
    rw [DirEntry.bits_link_userRw, Rights.ofWord_base_or g (by decide)]
    simp only [h0, ne_eq, not_false_eq_true, decide_true]
    decide

/-- Below the window, the rights of a walk are those that the translation shows, without user access to
the first region. -/
theorem Sound.rights_walk (h : t.Sound) (hs : va.slotIndex ≠ selfMapSlot)
    (ht : t.translate va = some (pa, flags)) :
    (t.walk va).rights? = some ⟨flags.writable, flags.userAccess && va.slotIndex ≠ 0⟩ := by
  cases hc : (t.slot va.slotIndex).content? with
  | none =>
    rw [translate_of_absent hc] at ht
    cases ht
  | some c =>
    cases c with
    | large q l =>
      obtain ⟨h0, -⟩ := (h.shape _).of_content?_eq_large hc
      rw [translate, hc] at ht
      cases ht
      rw [h.walk_eq, hc, Walk.rights?, Rights.ofWord_flags ⟨l.bits⟩, decide_eq_true h0, Bool.and_true]
    | table f l =>
      have hf := table?_eq_some_iff.2 ⟨l, hc⟩
      rw [translate_of_table hf, EntryBits.mapping?] at ht
      by_cases hp : (t.entry f va.entryIndex).present
      · rw [if_pos hp] at ht
        cases ht
        rw [h.walk_of_table hf, if_pos hp, Walk.rights?, h.rights_link hs hf, Rights.ofWord_flags, Rights.meet,
          Bool.true_and, Bool.and_comm]
      · rw [if_neg hp] at ht
        cases ht

end Tables

/-! ## Regions by address -/

theorem Address.slotIndex_ne_zero_iff {va : VirtualAddress} :
    va.slotIndex ≠ 0 ↔ 0x400000 ≤ va.val.toNat := by
  rw [ne_eq, Fin.ext_iff]
  show ¬va.val.toNat / 4194304 = 0 ↔ _
  omega

/-! ## At every moment -/

namespace Holding

variable {u : Holding} {t : Tables} {va vb : VirtualAddress} {pa : PhysicalAddress} {flags : EntryBits}
  {es : List Event}

/-- Outside of the first region, and without user access, the exception is none. -/
theorem user_eq_of_exception (h : 0x400000 ≤ va.val.toNat ∨ flags.userAccess = false) :
    some (Rights.mk flags.writable (flags.userAccess && va.slotIndex ≠ 0)) =
      some ⟨flags.writable, flags.userAccess⟩ := by
  rw [← Address.slotIndex_ne_zero_iff] at h
  rcases h with h0 | hu
  · rw [decide_eq_true h0, Bool.and_true]
  · rw [hu, Bool.false_and]

namespace Backed

theorem answer_translate_iff (h : Backed .windows u t) :
    u.answer (.space (.translate va)) = .ok (.translation pa flags) ↔ t.translate va = some (pa, flags) := by
  rw [h.answer_space, Tables.step]
  rcases t.translate va with _ | ⟨pa', flags'⟩ <;> simp [Answer.ofOption]

theorem rights?_eq (h : Backed .windows u t) (va : VirtualAddress) :
    u.rights? t.root va = (t.walk va).rights? := by
  rw [Holding.rights?, h.mirrors.ram]
  rfl

/-- The rights that are enforced for an address that translates. -/
theorem rights_of_translate (h : Backed .windows u t) (hs : va.slotIndex ≠ selfMapSlot)
    (ht : t.translate va = some (pa, flags)) :
    u.rights? t.root va = some ⟨flags.writable, flags.userAccess && va.slotIndex ≠ 0⟩ :=
  (h.rights?_eq va).trans (h.sound.rights_walk hs ht)

/-- The same for an address of a page that was just mapped. -/
theorem rights_of_map (h : Backed .windows u t)
    (ha : u.answer (.space (.map va pa flags)) = .ok .nothing) (hpage : vb.page .small = va.page .small) :
    (u.next (.space (.map va pa flags))).rights? t.root vb =
      some ⟨flags.writable, flags.userAccess && vb.slotIndex ≠ 0⟩ := by
  have h' := h.next_space (.map va pa flags)
  have hmap : (t.map va pa flags).1 = .ok () := by
    rwa [h.answer_space, Tables.step_map, Tables.done_eq_ok_iff] at ha
  have hvb : vb.slotIndex ≠ selfMapSlot := by
    intro hs
    rw [((Address.page_eq_iff vb va).1 hpage).1] at hs
    rw [Tables.map_window hs] at hmap
    cases hmap
  have ht := (Tables.mapEnds t va pa flags).translate h.sound hmap hvb
  rw [if_pos hpage, ← EntryBits.flags_leaf (pa.page .small)] at ht
  have hrights := h'.rights_of_translate hvb ht
  rw [h.root_next_space] at hrights
  have hleaf := (Rights.ofWord_flags (.leaf (pa.page .small) flags)).symm.trans (Rights.ofWord_leaf _ flags)
  rw [Rights.ofWord_bits] at hleaf
  simp only [Rights.mk.injEq] at hleaf
  rw [hrights, hleaf.1, hleaf.2]

theorem grantsRights (h : Backed .windows u t) : u.GrantsRights t.root where
  cr3 := h.mirrors.root
  reported va pa flags hva ha hexc := by
    have hs := Address.slotIndex_ne_selfMap_iff.2 hva
    rw [h.rights_of_translate hs (h.answer_translate_iff.1 ha)]
    exact user_eq_of_exception hexc
  first va pa flags hva ha := by
    have h0 : ¬va.slotIndex ≠ 0 := by
      rw [Address.slotIndex_ne_zero_iff]
      omega
    have hs := Address.slotIndex_ne_selfMap_iff.2 (show va.val.toNat < 0xFFC00000 by omega)
    rw [h.rights_of_translate hs (h.answer_translate_iff.1 ha), decide_eq_false h0, Bool.and_false]
  mapped va pa flags ha hexc vb hpage := by
    have hi := ((Address.page_eq_iff vb va).1 hpage).1
    rw [h.rights_of_map ha hpage, hi]
    exact user_eq_of_exception hexc

end Backed

/-- At every moment after boot, the processor enforces the rights that translations show and mappings ask
for, except that it keeps user code out of the first region. -/
theorem grantsRights_run (hb : u.Booted) (hf : u.HarmlessRun es) :
    ∃ root, u.session.space = some ⟨some ⟨root⟩⟩ ∧ (u.run es).GrantsRights root := by
  obtain ⟨t, hs, h⟩ := hb.run_backed hf
  exact ⟨t.root, hs, h.grantsRights⟩

theorem grantsRights_run_small : ∃ root, smallBooted.session.space = some ⟨some ⟨root⟩⟩ ∧
    (smallBooted.run [.space (.releaseLarge ⟨0x800000⟩), .space (.map ⟨0x800000⟩ ⟨0x5000⟩ ⟨7⟩),
      .space (.map ⟨0x3000⟩ ⟨0x700000⟩ ⟨4⟩), .cache ⟨0x3000⟩]).GrantsRights root :=
  grantsRights_run booted_small ⟨trivial, trivial, trivial, trivial, trivial⟩

/-- A page of the first region that was mapped for user code is shown as open to user code, and is not. -/
theorem first_region_denies_user : ∃ root, smallBooted.session.space = some ⟨some ⟨root⟩⟩ ∧
    smallBooted.answer (.space (.map ⟨0x3000⟩ ⟨0x700000⟩ ⟨6⟩)) = .ok .nothing ∧
    (smallBooted.next (.space (.map ⟨0x3000⟩ ⟨0x700000⟩ ⟨6⟩))).answer (.space (.translate ⟨0x3000⟩)) =
      .ok (.translation ⟨0x700000⟩ ⟨7⟩) ∧
    (EntryBits.mk 7).userAccess = true ∧
    (smallBooted.next (.space (.map ⟨0x3000⟩ ⟨0x700000⟩ ⟨6⟩))).rights? root ⟨0x3000⟩ =
      some ⟨true, false⟩ := by
  refine ⟨⟨16, by decide⟩, ?_, ?_, ?_, ?_, ?_⟩ <;> decide +kernel

end Holding

end Paging
