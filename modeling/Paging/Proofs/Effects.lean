import Paging.Proofs.Refusals

/-!
# What one change does to translations

Two changes touch single pages: `map`, which may make a table first, and `unmap`. `MapEnds` and
`unmap_of_maps` say what each of them writes, and `translate_map`, `translate_unmap` say what becomes of
the translation of every address: that of the page is the new one, all others are as they were. Only the
window of a new table comes to show something else.
-/

namespace Paging

namespace Tables

variable {t t' : Tables} {va vb : VirtualAddress} {pa : PhysicalAddress} {flags e : EntryBits}
  {i : SlotIndex} {f : Frame} {pool : FramePool} {r : Except MapRefusal Unit}

/-! ## Translations after a write -/

theorem translate_of_table (hf : t.table? vb.slotIndex = some f) : t.translate vb =
    (t.entry f vb.entryIndex).mapping?.map fun m => (m.1.join (vb.offset .small), m.2.flags) := by
  obtain ⟨l, hl⟩ := table?_eq_some_iff.1 hf
  simp only [translate, hl]
  cases (t.entry f vb.entryIndex).mapping? <;> rfl

theorem translate_of_absent (hc : (t.slot vb.slotIndex).content? = none) : t.translate vb = none := by
  rw [translate, hc]

/-- A translation depends on the slot, and on one entry of its table. -/
theorem translate_congr (hslot : t'.slot vb.slotIndex = t.slot vb.slotIndex)
    (hentry : ∀ f, t.table? vb.slotIndex = some f → t'.entry f vb.entryIndex = t.entry f vb.entryIndex) :
    t'.translate vb = t.translate vb := by
  unfold translate
  rw [hslot]
  split
  · rfl
  · rfl
  · rename_i f l hc
    rw [hentry f (table?_eq_some_iff.2 ⟨l, hc⟩)]

theorem translate_put (h : t.Sound) (hs : va.slotIndex ≠ selfMapSlot) (hf : t.table? va.slotIndex = some f)
    (e : EntryBits) (vb : VirtualAddress) : (t.put va ⟨f, va.entryIndex⟩ e).translate vb =
      if vb.page .small = va.page .small then
        e.mapping?.map fun m => (m.1.join (vb.offset .small), m.2.flags)
      else t.translate vb := by
  have hslot := slot_put (p := ⟨f, va.entryIndex⟩) h hs hf va e vb.slotIndex
  have hentry (g : Frame) : (t.put va ⟨f, va.entryIndex⟩ e).entry g vb.entryIndex =
      if g = f ∧ vb.entryIndex = va.entryIndex then e else t.entry g vb.entryIndex :=
    entry_setEntry (h.holds_table hf) g va.entryIndex vb.entryIndex e
  split
  · rename_i hpage
    obtain ⟨hi, hk⟩ := (Address.page_eq_iff vb va).1 hpage
    have hf' : (t.put va ⟨f, va.entryIndex⟩ e).table? vb.slotIndex = some f := by
      rw [table?, hslot, hi]; exact hf
    rw [translate_of_table hf', hentry, if_pos ⟨rfl, hk⟩]
  · rename_i hpage
    refine translate_congr hslot ?_
    intro g hg
    rw [hentry, if_neg]
    rintro ⟨rfl, hk⟩
    exact hpage ((Address.page_eq_iff vb va).2 ⟨h.distinct _ _ _ hg hf, hk⟩)

/-- A new table maps nothing, as did its slot before. -/
theorem translate_link (h : t.Sound) (hs : i ≠ selfMapSlot) (hc : (t.slot i).content? = none)
    (ht : t.pool.takeLowest? = some (f, pool)) (hb : vb.slotIndex ≠ selfMapSlot) :
    (t.link i f pool).translate vb = t.translate vb := by
  by_cases hi : vb.slotIndex = i
  · subst hi
    rw [translate_of_absent hc, translate_of_table (table?_link_self h hs hc ht), entry_link_self h hs hc ht]
    rfl
  · refine translate_congr ?_ ?_
    · rw [slot_link h hs hc ht, if_neg hi]
    · intro g hg
      exact entry_link_table h hs hc ht hb hg _

/-! ## `map` -/

/-- The ways `map` can end, with its answer and the tables after it. -/
inductive MapEnds (t : Tables) (va : VirtualAddress) (pa : PhysicalAddress) (flags : EntryBits) :
    Except MapRefusal Unit → Tables → Prop where
  | refused {e : MapRefusal} (he : e = .noFrame ∨ e = .notMappable va) : MapEnds t va pa flags (.error e) t
  | table {f : Frame} (hs : va.slotIndex ≠ selfMapSlot) (hf : t.table? va.slotIndex = some f) :
    MapEnds t va pa flags (.ok ()) (t.put va ⟨f, va.entryIndex⟩ (.leaf (pa.page .small) flags))
  | created {f : Frame} {pool : FramePool} (hs : va.slotIndex ≠ selfMapSlot)
    (hc : (t.slot va.slotIndex).content? = none) (ht : t.pool.takeLowest? = some (f, pool)) :
    MapEnds t va pa flags (.ok ())
      ((t.link va.slotIndex f pool).put va ⟨f, va.entryIndex⟩ (.leaf (pa.page .small) flags))

theorem mapEnds (t : Tables) (va : VirtualAddress) (pa : PhysicalAddress) (flags : EntryBits) :
    MapEnds t va pa flags (t.map va pa flags).1 (t.map va pa flags).2 := by
  have hl := located t va true
  unfold map
  generalize t.locate va true = r at hl ⊢
  obtain ⟨r, t'⟩ := r
  cases hl with
  | window | large => exact .refused (Or.inr rfl)
  | noFrame => exact .refused (Or.inl rfl)
  | table hs hf => exact .table hs hf
  | created hs hc ht => exact .created hs hc ht

theorem map_window (hs : va.slotIndex = selfMapSlot) (pa : PhysicalAddress) (flags : EntryBits) :
    t.map va pa flags = (.error (.notMappable va), t) := by
  rw [map, locate, if_pos hs]

namespace MapEnds

theorem of_error (hm : MapEnds t va pa flags r t') {e : MapRefusal} (hr : r = .error e) :
    t' = t ∧ (e = .noFrame ∨ e = .notMappable va) := by
  cases hm with
  | refused he => cases hr; exact ⟨rfl, he⟩
  | table | created => cases hr

/-- A page that was mapped translates to its frame, and no other page notices. -/
theorem translate (hm : MapEnds t va pa flags r t') (h : t.Sound) (hr : r = .ok ())
    (hb : vb.slotIndex ≠ selfMapSlot) : t'.translate vb =
      if vb.page .small = va.page .small then
        some ((pa.page .small).join (vb.offset .small), ⟨flags.bits &&& 0xFFF ||| 1⟩)
      else t.translate vb := by
  have hleaf : (EntryBits.leaf (pa.page .small) flags).mapping?.map
      (fun m => (m.1.join (vb.offset .small), m.2.flags)) =
        some ((pa.page .small).join (vb.offset .small), ⟨flags.bits &&& 0xFFF ||| 1⟩) := by
    rw [EntryBits.mapping?, if_pos (EntryBits.present_leaf _ _), Option.map_some, EntryBits.frame_leaf,
      ← EntryBits.flags_leaf (pa.page .small) flags]
  cases hm with
  | refused he => cases hr
  | table hs hf => rw [translate_put h hs hf, hleaf]
  | created hs hc ht =>
    rw [translate_put (link_sound h hs hc ht) hs (table?_link_self h hs hc ht), hleaf,
      translate_link h hs hc ht hb]

end MapEnds

/-! ## `unmap` -/

theorem unmap_of_maps (hm : t.Maps va) : ∃ f, va.slotIndex ≠ selfMapSlot ∧
    t.table? va.slotIndex = some f ∧ t.unmap va = t.put va ⟨f, va.entryIndex⟩ .absent := by
  obtain ⟨hs, f, hf, hpresent⟩ := hm
  refine ⟨f, hs, hf, ?_⟩
  rw [unmap, locate_of_table hs hf]
  exact if_pos hpresent

theorem translate_of_not_maps (hm : ¬t.Maps va) (hs : va.slotIndex ≠ selfMapSlot)
    (hf : t.table? va.slotIndex = some f) : t.translate va = none := by
  rw [translate_of_table hf, EntryBits.mapping?, if_neg]
  · rfl
  · intro hpresent
    exact hm ⟨hs, f, hf, hpresent⟩

theorem translate_of_maps (hm : t.Maps va) : t.translate va ≠ none := by
  obtain ⟨-, f, hf, hpresent⟩ := hm
  rw [translate_of_table hf, EntryBits.mapping?, if_pos hpresent]
  simp

theorem maps_congr (h : va.page .small = vb.page .small) : t.Maps va ↔ t.Maps vb := by
  obtain ⟨hi, hk⟩ := (Address.page_eq_iff va vb).1 h
  rw [Maps, Maps, hi, hk]

/-- A page that was unmapped translates to nothing, if it had a table; nothing else changes. -/
theorem translate_unmap (h : t.Sound) (va vb : VirtualAddress) : (t.unmap va).translate vb =
    if vb.page .small = va.page .small ∧ va.slotIndex ≠ selfMapSlot ∧ (t.table? va.slotIndex).isSome then none
    else t.translate vb := by
  by_cases hm : t.Maps va
  · obtain ⟨f, hs, hf, hu⟩ := unmap_of_maps hm
    rw [hu, translate_put h hs hf, hf]
    simp only [Option.isSome_some, and_true, hs, ne_eq, not_false_eq_true]
    rfl
  · rw [unmap_of_not_maps hm]
    split
    · rename_i hv
      obtain ⟨hpage, hs, hf⟩ := hv
      obtain ⟨f, hf⟩ := Option.isSome_iff_exists.1 hf
      obtain ⟨hi, -⟩ := (Address.page_eq_iff vb va).1 hpage
      rw [← hi] at hs hf
      exact translate_of_not_maps (fun hb => hm ((maps_congr hpage).1 hb)) hs hf
    · rfl

/-- What was unmapped is not mapped any more. -/
theorem not_maps_unmap (h : t.Sound) (va : VirtualAddress) : ¬(t.unmap va).Maps va := by
  intro hm
  refine translate_of_maps hm ?_
  obtain ⟨hs, f, hf, -⟩ := hm
  rw [table?, slot_unmap h] at hf
  rw [translate_unmap h, if_pos ⟨rfl, hs, Option.isSome_of_eq_some hf⟩]

end Tables

namespace Holding

variable {u : Holding} {t : Tables}

/-- What the machine answers is what the tables say. -/
theorem Backed.answer_space (h : Backed .windows u t) (p : SpaceStep) :
    u.answer (.space p) = (t.step p).1 := (h.step_space (Or.inr rfl)).1

theorem Backed.next_space (h : Backed .windows u t) (p : SpaceStep) :
    Backed .windows (u.next (.space p)) (t.step p).2 := (h.step_space (Or.inr rfl)).2.2

end Holding

end Paging
