import Paging.Proofs.Invalidation
import Paging.Proofs.Translation

/-!
# The views of the address space agree

A region can be classified, its directory slot be read, the entries of its table be listed, and each of its
addresses be translated. Four decoders read the same raw words for this, and the slot of the window is a
case of its own for each of them. `Holding.ViewsAgree` says what each answers by what the others answer,
and that asking changes neither memory nor pool nor the hardware calls. It holds at every moment of every
harmless run (`viewsAgree_run`).
-/

namespace Paging

namespace Holding

/-- What the kind of a region, the contents of its slot, the entries of its table and the translations of
its addresses say about one another. -/
structure ViewsAgree (u : Holding) : Prop where
  selfMap : ∀ va, u.answer (.space (.regionOf va)) = .ok (.region .selfMap) ↔ va.slotIndex = selfMapSlot
  unmapped : ∀ va, u.answer (.space (.regionOf va)) = .ok (.region .unmapped) ↔
    va.slotIndex ≠ selfMapSlot ∧ u.answer (.space (.slotContent va.slotIndex.val)) = .ok .nothing
  identityLarge : ∀ va, u.answer (.space (.regionOf va)) = .ok (.region .identityLarge) ↔
    va.slotIndex ≠ selfMapSlot ∧
      ∃ q l, u.answer (.space (.slotContent va.slotIndex.val)) = .ok (.content (.large q l))
  tableBacked : ∀ va, u.answer (.space (.regionOf va)) = .ok (.region .tableBacked) ↔
    va.slotIndex ≠ selfMapSlot ∧
      ∃ f l, u.answer (.space (.slotContent va.slotIndex.val)) = .ok (.content (.table f l))
  /-- Only a region with a table has entries to list. -/
  entries : ∀ va, (∃ es, u.answer (.space (.entriesOf va.slotIndex.val)) = .ok (.entries es)) ↔
    u.answer (.space (.regionOf va)) = .ok (.region .tableBacked)
  noEntries : ∀ va, u.answer (.space (.entriesOf va.slotIndex.val)) = .ok .nothing ↔
    u.answer (.space (.regionOf va)) ≠ .ok (.region .tableBacked)
  ascending : ∀ (i : SlotIndex) es, u.answer (.space (.entriesOf i.val)) = .ok (.entries es) →
    es.Pairwise (·.1 < ·.1)
  /-- The entry of every page that translates is listed, and says where to. -/
  listed : ∀ va es, u.answer (.space (.entriesOf va.slotIndex.val)) = .ok (.entries es) →
    ∀ e, (va.entryIndex, e) ∈ es → u.answer (.space (.translate va)) =
      .ok (.translation ((Walk.frameOf e.bits).join (va.offset .small)) ⟨e.bits &&& 0xFFF⟩)
  /-- No other page translates. -/
  notListed : ∀ va es, u.answer (.space (.entriesOf va.slotIndex.val)) = .ok (.entries es) →
    (∀ e, (va.entryIndex, e) ∉ es) → u.answer (.space (.translate va)) = .ok .nothing
  large : ∀ va q l, u.answer (.space (.slotContent va.slotIndex.val)) = .ok (.content (.large q l)) →
    u.answer (.space (.translate va)) = .ok (.translation (q.join (va.offset .large)) ⟨l.bits &&& 0xFFF⟩)
  /-- In an unmapped region no address translates. -/
  absent : ∀ va, u.answer (.space (.regionOf va)) = .ok (.region .unmapped) →
    ∀ vb, vb.slotIndex = va.slotIndex → u.answer (.space (.translate vb)) = .ok .nothing
  readOnly : ∀ p, p.Inspects → u.Untouched (u.next (.space p))

end Holding

/-! ## What a slot makes of its region -/

namespace Region

/-- The region of slot `i`, which holds `c`, is `r`. -/
def FitsSlot (r : Region) (i : SlotIndex) (c : Option SlotContent) : Prop :=
  match r with
  | selfMap => i = selfMapSlot
  | unmapped => i ≠ selfMapSlot ∧ c = none
  | identityLarge => i ≠ selfMapSlot ∧ ∃ q l, c = some (.large q l)
  | tableBacked => i ≠ selfMapSlot ∧ ∃ f l, c = some (.table f l)

/-- Every slot fits one region, the one it is classified as. -/
theorem ofSlot_eq_iff {i : SlotIndex} {e : DirEntry} {r : Region} :
    ofSlot i e = r ↔ r.FitsSlot i e.content? := by
  unfold ofSlot
  by_cases hs : i = selfMapSlot
  · cases r <;> simp [FitsSlot, hs]
  · rcases e.content? with _ | (_ | _) <;> cases r <;> simp [FitsSlot, hs]

end Region

namespace Tables

variable {t : Tables} {i : SlotIndex} {f : Frame} {va : VirtualAddress} {k : EntryIndex} {e : EntryBits}

theorem step_slotContent (t : Tables) (i : SlotIndex) :
    t.step (.slotContent i.val) = (.ok (.ofOption .content (t.slot i).content?), t) := by
  have hi : checkIndex i.val = .ok i := dif_pos i.isLt
  simp only [step, hi]

theorem step_entriesOf (t : Tables) (i : SlotIndex) :
    t.step (.entriesOf i.val) = (.ok (.ofOption .entries (t.entriesOf i)), t) := by
  have hi : checkIndex i.val = .ok i := dif_pos i.isLt
  simp only [step, hi]

/-! ## The entries of a table -/

theorem mappings_eq (t : Tables) (f : Frame) : t.mappings f = (PageTable.ofFn (t.entry f)).mappings := by
  simp only [mappings, PageTable.mappings, PageTable.get_ofFn]

theorem mem_mappings : (k, e) ∈ t.mappings f ↔ e = t.entry f k ∧ e.present := by
  rw [mappings_eq, PageTable.mem_mappings, PageTable.get_ofFn]

theorem pairwise_mappings (t : Tables) (f : Frame) : (t.mappings f).Pairwise (·.1 < ·.1) := by
  rw [mappings_eq]
  exact PageTable.pairwise_mappings _

/-- There are entries to list where the slot links a table, but for the window. -/
theorem entriesOf_eq_some_iff {es : List (EntryIndex × EntryBits)} : t.entriesOf i = some es ↔
    i ≠ selfMapSlot ∧ ∃ f, t.table? i = some f ∧ es = t.mappings f := by
  unfold entriesOf table? DirEntry.table?
  by_cases hs : i = selfMapSlot
  · simp [hs]
  · rcases (t.slot i).content? with _ | (⟨f, l⟩ | ⟨q, l⟩) <;> simp [hs, eq_comm]

theorem isSome_entriesOf_iff :
    (t.entriesOf i).isSome ↔ Region.tableBacked.FitsSlot i (t.slot i).content? := by
  unfold entriesOf Region.FitsSlot
  by_cases hs : i = selfMapSlot
  · simp [hs]
  · rcases (t.slot i).content? with _ | (_ | _) <;> simp [hs]

/-- A listed entry is what its page translates by. -/
theorem translate_of_mem_mappings (hf : t.table? va.slotIndex = some f)
    (hmem : (va.entryIndex, e) ∈ t.mappings f) :
    t.translate va = some ((Walk.frameOf e.bits).join (va.offset .small), ⟨e.bits &&& 0xFFF⟩) := by
  obtain ⟨rfl, hp⟩ := mem_mappings.1 hmem
  rw [translate_of_table hf, EntryBits.mapping?, if_pos hp, Walk.frameOf_eq_entry]
  rfl

/-- A page without a listed entry does not translate. -/
theorem translate_of_not_mem_mappings (hf : t.table? va.slotIndex = some f)
    (hmem : ∀ e, (va.entryIndex, e) ∉ t.mappings f) : t.translate va = none := by
  have hp : ¬(t.entry f va.entryIndex).present := fun hp => hmem _ (mem_mappings.2 ⟨rfl, hp⟩)
  rw [translate_of_table hf, EntryBits.mapping?, if_neg hp]
  rfl

end Tables

namespace Holding

variable {u : Holding} {t : Tables} {va : VirtualAddress} {i : SlotIndex} {es : List Event}

namespace Backed

/-! ## Answers, in terms of the tables -/

theorem answer_region_iff (h : Backed .windows u t) {r : Region} :
    u.answer (.space (.regionOf va)) = .ok (.region r) ↔
      r.FitsSlot va.slotIndex (t.slot va.slotIndex).content? := by
  rw [h.answer_space, Tables.step, Except.ok.injEq, Answer.region.injEq]
  exact Region.ofSlot_eq_iff

theorem answer_content_iff (h : Backed .windows u t) {c : SlotContent} :
    u.answer (.space (.slotContent i.val)) = .ok (.content c) ↔ (t.slot i).content? = some c := by
  rw [h.answer_space, Tables.step_slotContent]
  rcases (t.slot i).content? with _ | c' <;> simp [Answer.ofOption]

theorem answer_noContent_iff (h : Backed .windows u t) :
    u.answer (.space (.slotContent i.val)) = .ok .nothing ↔ (t.slot i).content? = none := by
  rw [h.answer_space, Tables.step_slotContent]
  rcases (t.slot i).content? with _ | c' <;> simp [Answer.ofOption]

theorem answer_entries_iff (h : Backed .windows u t) {es : List (EntryIndex × EntryBits)} :
    u.answer (.space (.entriesOf i.val)) = .ok (.entries es) ↔ t.entriesOf i = some es := by
  rw [h.answer_space, Tables.step_entriesOf]
  rcases t.entriesOf i with _ | es' <;> simp [Answer.ofOption]

theorem answer_noEntries_iff (h : Backed .windows u t) :
    u.answer (.space (.entriesOf i.val)) = .ok .nothing ↔ t.entriesOf i = none := by
  rw [h.answer_space, Tables.step_entriesOf]
  rcases t.entriesOf i with _ | es' <;> simp [Answer.ofOption]

theorem answer_translate (h : Backed .windows u t) (va : VirtualAddress) :
    u.answer (.space (.translate va)) = .ok (.ofOption (fun r => .translation r.1 r.2) (t.translate va)) :=
  h.answer_space _

theorem viewsAgree (h : Backed .windows u t) : u.ViewsAgree where
  selfMap _ := h.answer_region_iff
  unmapped va := by
    rw [h.answer_region_iff, h.answer_noContent_iff]
    rfl
  identityLarge va := by
    simp only [h.answer_region_iff, h.answer_content_iff]
    rfl
  tableBacked va := by
    simp only [h.answer_region_iff, h.answer_content_iff]
    rfl
  entries va := by
    simp only [h.answer_region_iff, h.answer_entries_iff]
    rw [← Option.isSome_iff_exists, Tables.isSome_entriesOf_iff]
  noEntries va := by
    rw [h.answer_noEntries_iff, ne_eq, h.answer_region_iff, ← Tables.isSome_entriesOf_iff,
      Option.not_isSome_iff_eq_none]
  ascending i es hes := by
    obtain ⟨-, f, -, heq⟩ := Tables.entriesOf_eq_some_iff.1 (h.answer_entries_iff.1 hes)
    rw [heq]
    exact Tables.pairwise_mappings t f
  listed va es hes e hmem := by
    obtain ⟨-, f, hf, heq⟩ := Tables.entriesOf_eq_some_iff.1 (h.answer_entries_iff.1 hes)
    rw [h.answer_translate, Tables.translate_of_mem_mappings hf (heq ▸ hmem)]
    rfl
  notListed va es hes hmem := by
    obtain ⟨-, f, hf, heq⟩ := Tables.entriesOf_eq_some_iff.1 (h.answer_entries_iff.1 hes)
    rw [h.answer_translate, Tables.translate_of_not_mem_mappings hf (heq ▸ hmem)]
    rfl
  large va q l hc := by
    rw [h.answer_translate, Tables.translate, h.answer_content_iff.1 hc]
    rfl
  absent va hr vb hi := by
    obtain ⟨-, hc⟩ := h.answer_region_iff.1 hr
    rw [h.answer_translate, Tables.translate_of_absent (by rw [hi, hc])]
    rfl
  readOnly p hp := by
    have h' := h.next_space p
    rw [Tables.step_of_inspects hp] at h'
    exact h.untouched h'

end Backed

/-- At every moment after boot, what can be asked about the address space agrees, and asking changes
nothing. -/
theorem viewsAgree_run (hb : u.Booted) (hf : u.HarmlessRun es) : (u.run es).ViewsAgree := by
  obtain ⟨t, -, h⟩ := hb.run_backed hf
  exact h.viewsAgree

theorem viewsAgree_run_small : (smallBooted.run [.space (.releaseLarge ⟨0x800000⟩),
    .space (.map ⟨0x801000⟩ ⟨0x5000⟩ ⟨7⟩), .space (.releaseLarge ⟨0xC00000⟩), .cache ⟨0x3000⟩]).ViewsAgree :=
  viewsAgree_run booted_small ⟨trivial, trivial, trivial, trivial, trivial⟩

end Holding

end Paging
