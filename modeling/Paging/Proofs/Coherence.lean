import Paging.Proofs.Cache
import Paging.Proofs.Direct

/-!
# Why every change drops what it drops

Each change of the tables makes some cached translation wrong. The three theorems here name it:
what the tables vouched for before the change, less the page that the operation drops, is vouched for
after the change. A released slot leaves its window stale, which the tables allow as long as the slot
is absent; a new table makes up for it by dropping the window.
-/

namespace Paging

namespace Tables

variable {t : Tables} {s : Scope} {va : VirtualAddress} {i : SlotIndex} {f : Frame} {pool : FramePool}

theorem translations_setEntry (h : t.Sound) (hs : va.slotIndex ≠ selfMapSlot)
    (hf : t.table? va.slotIndex = some f) (e : EntryBits) :
    (t.translations s).drop (va.page .small) ≤ (t.setEntry f va.entryIndex e).translations s := by
  constructor
  · rintro p g ⟨hne, hA⟩ hcov
    refine gives_congr (walk_setEntry h hf hs ?_ e) (hA hcov)
    rintro ⟨hi, hk⟩
    refine hne ?_
    rw [← Page.page_base p]
    exact (Address.page_eq_iff _ _).2 ⟨hi, hk⟩
  · rintro r q ⟨hne, hA⟩ hcov
    refine givesLarge_congr (walk_setEntry h hf hs ?_ e) (hA hcov)
    rintro ⟨hi, -⟩
    rw [Address.region_page] at hne
    exact hne ((Page.slotIndex_base_eq_iff _ _).1 hi)

/-- The windows do not notice what is written into a table. -/
theorem translations_setEntry_windows (h : t.Sound) (hs : i ≠ selfMapSlot) (hf : t.table? i = some f)
    (k : EntryIndex) (e : EntryBits) :
    t.translations .windows ≤ (t.setEntry f k e).translations .windows := by
  have hwin {vb : VirtualAddress} (hcov : Scope.windows.Covers vb.slotIndex) :
      ¬(vb.slotIndex = i ∧ vb.entryIndex = k) := by
    rintro ⟨hi, -⟩
    exact hs (hi.symm.trans hcov)
  constructor
  · intro p g hA hcov
    exact gives_congr (walk_setEntry h hf hs (hwin hcov) e) (hA hcov)
  · intro r q hA hcov
    exact givesLarge_congr (walk_setEntry h hf hs (hwin hcov) e) (hA hcov)

theorem translations_release (h : t.Sound) {q : Page .physical .large} {l : LargeLeaf}
    (hc : (t.slot i).content? = some (.large q l)) :
    (t.translations s).drop ((SlotIndex.base i).page .small) ≤
      (t.setSlot i .absent).translations s := by
  have h' := release_sound h hc
  obtain ⟨h0, -, -⟩ := (h.shape i).of_content?_eq_large hc
  have hnone : t.table? i = none := by rw [table?, DirEntry.table?, hc]
  constructor
  · rintro p g ⟨-, hA⟩ hcov
    by_cases hi : p.base.slotIndex = i
    · exact absurd (hA hcov) (not_gives_of_table?_eq_none h (hi ▸ hnone))
    · by_cases hw : p.base.slotIndex = selfMapSlot ∧ p.base.entryIndex = i
      · -- the window of the slot: whatever is cached for it, the slot is absent now
        refine Or.inr ⟨hw.1, (((t.setSlot i .absent).slot selfMapSlot).bits), ?_⟩
        rw [walk_window h' hw.1, hw.2, slot_setSlot h.holds_root, if_pos rfl]
        rfl
      · exact gives_congr (walk_setSlot h h' hi fun hs hk => hw ⟨hs, hk⟩) (hA hcov)
  · rintro r q ⟨hne, hA⟩ hcov
    rw [region_page_base, ne_eq, ← Page.slotIndex_base_eq_iff] at hne
    refine givesLarge_congr (walk_setSlot h h' hne ?_) (hA hcov)
    intro hs
    rw [(Page.slotIndex_base_eq_iff _ _).1 hs] at hA
    exact absurd hA (not_translations_large h)

/-! ## A new table -/

section Link

variable (h : t.Sound) (hs : i ≠ selfMapSlot) (hc : (t.slot i).content? = none)
  (ht : t.pool.takeLowest? = some (f, pool))

include h hs hc ht

/-- A new table matters to the addresses of its region and to its window. -/
theorem walk_link (hi : va.slotIndex ≠ i) (hw : va.slotIndex = selfMapSlot → va.entryIndex ≠ i) :
    (t.link i f pool).walk va = t.walk va := by
  refine walk_congr h (link_sound h hs hc ht) (by rw [slot_link h hs hc ht, if_neg hi]) ?_
  intro g hg
  by_cases hself : va.slotIndex = selfMapSlot
  · rw [hself, h.table?_selfMap] at hg
    obtain rfl := Option.some.inj hg
    have hroot : (t.link i f pool).entry t.root va.entryIndex =
        ⟨((t.link i f pool).slot va.entryIndex).bits⟩ := rfl
    rw [hroot, slot_link h hs hc ht, if_neg (hw hself), entry_root]
  · exact entry_link_table h hs hc ht hself hg _

/-- Nothing was cached for the region of an absent slot. -/
theorem translations_link : ((t.translations s).drop ((tableView i).page .small)).add
    ((tableView i).page .small) f ≤ (t.link i f pool).translations s := by
  have h' := link_sound h hs hc ht
  have hnone : t.table? i = none := by rw [table?, DirEntry.table?, hc]
  constructor
  · rintro p g (⟨rfl, rfl⟩ | ⟨hne, hA⟩) hcov
    · exact Or.inl (gives_window h' (table?_link_self h hs hc ht))
    · by_cases hi : p.base.slotIndex = i
      · exact absurd (hA hcov) (not_gives_of_table?_eq_none h (hi ▸ hnone))
      · exact gives_congr (walk_link h hs hc ht hi (entryIndex_ne_of_ne_tableView hne)) (hA hcov)
  · rintro r q ⟨-, hA⟩ hcov
    obtain ⟨w, hw, -⟩ := hA hcov
    refine givesLarge_congr (walk_link h hs hc ht ?_ ?_) (hA hcov)
    · rintro rfl
      rw [h.walk_eq, hc] at hw; cases hw
    · intro hself
      rw [walk_window h hself] at hw
      split at hw <;> cases hw

end Link

end Tables

end Paging
