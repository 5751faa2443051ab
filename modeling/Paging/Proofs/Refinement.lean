import Paging.Proofs.AddressSpace
import Paging.Proofs.Runs

/-!
# The operations implement an address space

`Tables.space` forgets where tables lie and how their words look. Every step commutes with it
(`Simulates`): what the step does to the tables and answers is what `AddressSpace.step` does and
answers. Together with the runs of a booted machine this gives `implements_run`: after any steps, the
machine answers any step as the address space of boot does after the same steps.

One more invariant is needed for the entries that a lookup shows: an absent entry of a linked table is
the zero word (`Tables.Tidy`). A new table is emptied before it can be seen, and every removal writes
zero.
-/

namespace Paging

namespace EntryBits

/-- What an entry maps, without its word. -/
def asMapping (e : EntryBits) : Option Mapping :=
  if e.present then
    some ⟨e.frame, e.flags.bits, by
      rw [UInt32.lt_iff_toNat_lt, flags, UInt32.toNat_and]
      exact Nat.and_lt_two_pow (n := 12) _ (by decide)⟩
  else none

theorem asMapping_absent : absent.asMapping = none := by
  rw [asMapping, present_absent]; rfl

theorem asMapping_leaf (f : Frame) (flags : EntryBits) :
    (leaf f flags).asMapping = some (.ofFlags f flags) := by
  rw [asMapping, if_pos (present_leaf f flags)]
  exact congrArg some (Mapping.ext (frame_leaf f flags) (flags_leaf f flags))

/-- A word is the frame in its upper bits over the flags in its lower bits. -/
theorem bits_eq (e : EntryBits) : e.frame.base.val ||| e.flags.bits = e.bits := by
  apply Field.eq_of_testBit
  intro j hj
  have hmask : (4095 : Nat).testBit j = decide (j < 12) := Nat.testBit_two_pow_sub_one 12 j
  rw [UInt32.toNat_or, Nat.testBit_or, Page.testBit_base_small]
  simp only [frame, flags, flagBits, UInt32.toNat_and, Nat.testBit_and, Field.testBit_get, frameField,
    UInt32.toNat_ofNat]
  rw [Nat.mod_eq_of_lt (by decide : 4095 < 2 ^ 32), hmask]
  by_cases h12 : 12 ≤ j
  · rw [decide_eq_true h12, decide_eq_true (show j - 12 < 20 by omega), decide_eq_false (by omega),
      Nat.add_sub_cancel' h12]
    simp
  · rw [decide_eq_false h12, decide_eq_true (show j < 12 by omega)]
    simp

/-- An entry that is not a stray word is found again in what it maps. -/
theorem shown_asMapping {e : EntryBits} (h : e.present = false → e = absent) :
    AddressSpace.shown e.asMapping = e := by
  unfold asMapping
  by_cases hp : e.present = true
  · rw [if_pos hp]; exact EntryBits.ext e.bits_eq
  · rw [if_neg hp]; exact (h (by simpa using hp)).symm

theorem entry_ofFlags (f : Frame) (flags : EntryBits) : (Mapping.ofFlags f flags).entry = leaf f flags := by
  have h : AddressSpace.shown (leaf f flags).asMapping = leaf f flags := by
    apply shown_asMapping
    intro hn
    simp at hn
  rwa [asMapping_leaf] at h

end EntryBits

namespace Tables

/-! ## Forgetting the tables -/

/-- The pages of the table in frame `f`. -/
def pages (t : Tables) (f : Frame) (k : EntryIndex) : Option Mapping := (t.entry f k).asMapping

def area (t : Tables) (i : SlotIndex) : Area :=
  if i = selfMapSlot then .window
  else
    match (t.slot i).content? with
    | none => .absent
    | some (.large ..) => .large
    | some (.table f _) => .table (t.pages f)

def space (t : Tables) : AddressSpace := ⟨t.area, t.pool.free⟩

variable {t t' : Tables} {i : SlotIndex} {f : Frame} {va : VirtualAddress} {create : Bool}

theorem area_selfMap (t : Tables) : t.area selfMapSlot = .window := if_pos rfl

theorem area_of_table (hi : i ≠ selfMapSlot) (hf : t.table? i = some f) : t.area i = .table (t.pages f) := by
  obtain ⟨l, hl⟩ := table?_eq_some_iff.1 hf
  rw [area, if_neg hi, hl]

theorem area_of_large (hi : i ≠ selfMapSlot) {q : Page .physical .large} {l : LargeLeaf}
    (hc : (t.slot i).content? = some (.large q l)) : t.area i = .large := by
  rw [area, if_neg hi, hc]

theorem area_of_absent (hi : i ≠ selfMapSlot) (hc : (t.slot i).content? = none) : t.area i = .absent := by
  rw [area, if_neg hi, hc]

theorem Sound.area_eq_absent (h : t.Sound) (hc : (t.slot i).content? = none) : t.area i = .absent :=
  Tables.area_of_absent ((h.shape i).of_content?_eq_none hc).2.1 hc

/-- An area depends on its slot and on the entries of its table. -/
theorem area_congr (hslot : t'.slot i = t.slot i)
    (hentry : i ≠ selfMapSlot → ∀ f, t.table? i = some f → ∀ k, t'.entry f k = t.entry f k) :
    t'.area i = t.area i := by
  by_cases hi : i = selfMapSlot
  · rw [hi, area_selfMap, area_selfMap]
  · cases hc : (t.slot i).content? with
    | none => rw [area_of_absent hi hc, area_of_absent hi (hslot ▸ hc)]
    | some c =>
      cases c with
      | large q l => rw [area_of_large hi hc, area_of_large hi (hslot ▸ hc)]
      | table f l =>
        have hf := table?_eq_some_iff.2 ⟨l, hc⟩
        rw [area_of_table hi hf, area_of_table hi (by rw [table?, hslot]; exact hf)]
        exact congrArg Area.table (funext fun k => congrArg EntryBits.asMapping (hentry hi f hf k))

/-- Sound tables without stray words. -/
structure Tidy (t : Tables) : Prop where
  sound : t.Sound
  blank : ∀ i f, i ≠ selfMapSlot → t.table? i = some f → ∀ k,
    (t.entry f k).present = false → t.entry f k = .absent

theorem Tidy.call (h : t.Tidy) (c : HardwareCall) : (t.call c).Tidy := ⟨h.sound.call c, h.blank⟩

theorem Sound.wellFormed (h : t.Sound) : t.space.WellFormed where
  window i := by
    constructor
    · intro hw
      by_contra hi
      have hw : t.area i = .window := hw
      cases hc : (t.slot i).content? with
      | none => rw [area_of_absent hi hc] at hw; cases hw
      | some c =>
        cases c with
        | large q l => rw [area_of_large hi hc] at hw; cases hw
        | table f l => rw [area_of_table hi (table?_eq_some_iff.2 ⟨l, hc⟩)] at hw; cases hw
    · rintro rfl
      exact t.area_selfMap
  first := by
    obtain ⟨f, hf⟩ := (h.shape 0).table?_first
    exact ⟨t.pages f, area_of_table (by decide) hf⟩

/-! ## The changes of the tables -/

section SetEntry

variable (h : t.Tidy) (hi : va.slotIndex ≠ selfMapSlot) (hf : t.table? va.slotIndex = some f)
  (e : EntryBits)

include h hi hf

/-- Writing an entry stores what it maps. -/
theorem space_setEntry : (t.setEntry f va.entryIndex e).space = t.space.store va (t.pages f) e.asMapping := by
  have hram := h.sound.holds_table hf
  have hslot := slot_setEntry_table h.sound hi hf va.entryIndex e
  refine AddressSpace.ext (funext ?_) rfl
  intro j
  show (t.setEntry f va.entryIndex e).area j = Function.update t.area va.slotIndex _ j
  by_cases hj : j = va.slotIndex
  · subst hj
    rw [Function.update_self, area_of_table hi (by rw [table?, hslot]; exact hf)]
    refine congrArg Area.table (funext ?_)
    intro k
    rw [pages, entry_setEntry hram]
    by_cases hk : k = va.entryIndex
    · rw [if_pos ⟨rfl, hk⟩, hk, Function.update_self]
    · rw [if_neg fun hand => hk hand.2, Function.update_of_ne hk]; rfl
  · rw [Function.update_of_ne hj]
    apply area_congr (hslot j)
    intro _ g hg k
    rw [entry_setEntry hram, if_neg]
    rintro ⟨rfl, -⟩
    exact hj (h.sound.distinct _ _ _ hg hf)

theorem Tidy.setEntry (he : e.present = false → e = .absent) : (t.setEntry f va.entryIndex e).Tidy where
  sound := h.sound.setEntry hf hi _ e
  blank j g hj hg k := by
    rw [table?, slot_setEntry_table h.sound hi hf] at hg
    rw [entry_setEntry (h.sound.holds_table hf)]
    split
    · exact he
    · exact h.blank j g hj hg k

end SetEntry

section Release

variable (h : t.Tidy) {q : Page .physical .large} {l : LargeLeaf}
  (hc : (t.slot i).content? = some (.large q l))

include h hc

theorem space_release : (t.setSlot i .absent).space = t.space.setArea i .absent := by
  obtain ⟨-, hi, -⟩ := (h.sound.shape i).of_content?_eq_large hc
  have hslot (j : SlotIndex) := slot_setSlot h.sound.holds_root i j .absent
  refine AddressSpace.ext (funext ?_) rfl
  intro j
  show (t.setSlot i .absent).area j = Function.update t.area i _ j
  by_cases hj : j = i
  · subst hj
    rw [Function.update_self, area_of_absent hi (by rw [hslot, if_pos rfl]; exact DirEntry.content?_absent)]
  · rw [Function.update_of_ne hj]
    apply area_congr (by rw [hslot, if_neg hj])
    intro hj g hg k
    exact entry_setSlot h.sound.holds_root (h.sound.table_ne_root hg hj) i _ k

theorem Tidy.release : (t.setSlot i .absent).Tidy where
  sound := release_sound h.sound hc
  blank j g hj hg k := by
    rw [table?_setSlot h.sound.holds_root] at hg
    split at hg
    · rw [DirEntry.table?_absent] at hg; cases hg
    · rw [entry_setSlot h.sound.holds_root (h.sound.table_ne_root hg hj)]
      exact h.blank j g hj hg k

end Release

section Link

variable (h : t.Tidy) (hi : i ≠ selfMapSlot) (hc : (t.slot i).content? = none) {pool : FramePool}
  (ht : t.pool.takeLowest? = some (f, pool))

include h hi hc ht

theorem pages_link : (t.link i f pool).pages f = fun _ => none := by
  funext k
  rw [pages, entry_link_self h.sound hi hc ht, EntryBits.asMapping_absent]

/-- A new table makes an area without pages, and costs a frame. -/
theorem space_link : (t.link i f pool).space =
    { t.space.setArea i (.table fun _ => none) with free := t.space.free - 1 } := by
  have hslot (j : SlotIndex) := slot_link h.sound hi hc ht j
  have hf := table?_link_self h.sound hi hc ht
  refine AddressSpace.ext (funext ?_) ?_
  · intro j
    show (t.link i f pool).area j = Function.update t.area i _ j
    by_cases hj : j = i
    · subst hj
      rw [Function.update_self, area_of_table hi hf]
      exact congrArg Area.table (pages_link h hi hc ht)
    · rw [Function.update_of_ne hj]
      apply area_congr (by rw [hslot, if_neg hj])
      intro hj g hg k
      exact entry_link_table h.sound hi hc ht hj hg k
  · have hfree := (FramePool.take_spec h.sound.pool ht).2.2.2.2
    show pool.free = t.pool.free - 1
    omega

theorem Tidy.link : (t.link i f pool).Tidy where
  sound := link_sound h.sound hi hc ht
  blank j g hj hg k := by
    rw [table?_link h.sound hi hc ht] at hg
    split at hg
    · cases hg
      exact fun _ => entry_link_self h.sound hi hc ht k
    · rw [entry_link_table h.sound hi hc ht hj hg]
      exact h.blank j g hj hg k

end Link

/-! ## Operations -/

/-- A step on tables ends in tidy tables, and with them forgotten it is a step on an address space. -/
structure Simulates {α : Type} (r : α × Tables) (r' : α × AddressSpace) : Prop where
  tidy : r.2.Tidy
  answer : r.1 = r'.1
  space : r.2.space = r'.2

theorem lookup_space {r : Except MapRefusal (Option EntryPlace)} (h : t.Tidy)
    (hl : Located t va create r t') : t'.Tidy ∧
      t.space.lookup va create = (r.map (Option.map fun p => t'.pages p.table), t'.space) := by
  have harea : t.space.area = t.area := rfl
  unfold AddressSpace.lookup
  cases hl with
  | window hs => rw [harea, hs, area_selfMap]; exact ⟨h, rfl⟩
  | large hs hc => rw [harea, area_of_large hs hc]; exact ⟨h, rfl⟩
  | table hs hf => rw [harea, area_of_table hs hf]; exact ⟨h, rfl⟩
  | absent hc => rw [harea, h.sound.area_eq_absent hc]; exact ⟨h, rfl⟩
  | noFrame hc ht =>
    have hfree : t.space.free = 0 := (FramePool.takeLowest?_eq_none_iff h.sound.pool).1 ht
    rw [harea, h.sound.area_eq_absent hc]
    simp only [hfree, if_true]
    exact ⟨h, rfl⟩
  | @created f pool hs hc ht =>
    have hfree : t.space.free ≠ 0 := by
      intro h0
      rw [(FramePool.takeLowest?_eq_none_iff h.sound.pool).2 h0] at ht; cases ht
    rw [harea, area_of_absent hs hc, space_link h hs hc ht]
    simp only [hfree, if_true, if_false]
    exact ⟨h.link hs hc ht, by rw [← pages_link h hs hc ht]; rfl⟩

/-- Writing an entry that was found, and dropping its page. -/
theorem put_simulates (h : t.Tidy) (hi : va.slotIndex ≠ selfMapSlot) (hf : t.table? va.slotIndex = some f)
    {e : EntryBits} (he : e.present = false → e = .absent) {α : Type} (a : α) :
    Simulates (a, t.put va ⟨f, va.entryIndex⟩ e) (a, t.space.store va (t.pages f) e.asMapping) :=
  ⟨(h.setEntry hi hf e he).call _, rfl, space_setEntry h hi hf e⟩

theorem leaf_not_blank (f : Frame) (flags : EntryBits) :
    (EntryBits.leaf f flags).present = false → EntryBits.leaf f flags = .absent := by
  intro hn
  simp at hn

theorem map_simulates (h : t.Tidy) (va : VirtualAddress) (pa : PhysicalAddress) (flags : EntryBits) :
    Simulates (t.map va pa flags) (t.space.map va pa flags) := by
  have hl := located t va true
  unfold map AddressSpace.map
  generalize t.locate va true = r at hl ⊢
  obtain ⟨r, t'⟩ := r
  obtain ⟨ht', hlook⟩ := lookup_space h hl
  rw [hlook]
  match r with
  | .error e => exact ⟨ht', rfl, rfl⟩
  | .ok none => exact ⟨ht', rfl, rfl⟩
  | .ok (some ⟨f, k⟩) =>
    obtain ⟨hi, hf, rfl⟩ := hl.place h.sound
    rw [← EntryBits.asMapping_leaf]
    exact put_simulates ht' hi hf (leaf_not_blank _ _) _

/-- Removing what is not there. -/
theorem store_none (hi : va.slotIndex ≠ selfMapSlot) (hf : t.table? va.slotIndex = some f)
    (hn : (t.entry f va.entryIndex).present = false) : t.space.store va (t.pages f) none = t.space := by
  have hpage : t.pages f va.entryIndex = none := by
    rw [pages, EntryBits.asMapping, if_neg (by simp [hn])]
  refine AddressSpace.ext ?_ rfl
  show Function.update t.area va.slotIndex (.table (Function.update (t.pages f) va.entryIndex none)) = t.area
  rw [← hpage, Function.update_eq_self, ← area_of_table hi hf, Function.update_eq_self]

theorem unmap_simulates (h : t.Tidy) (va : VirtualAddress) :
    Simulates ((), t.unmap va) ((), t.space.unmap va) := by
  have harea : t.space.area = t.area := rfl
  have hl := located t va false
  unfold unmap AddressSpace.unmap
  generalize t.locate va false = r at hl ⊢
  obtain ⟨r, t'⟩ := r
  cases hl with
  | window hs => rw [harea, hs, area_selfMap]; exact ⟨h, rfl, rfl⟩
  | large hs hc => rw [harea, area_of_large hs hc]; exact ⟨h, rfl, rfl⟩
  | absent hc => rw [harea, h.sound.area_eq_absent hc]; exact ⟨h, rfl, rfl⟩
  | @table _ f hs hf =>
    rw [harea, area_of_table hs hf]
    simp only
    split
    · exact put_simulates h hs hf (fun _ => rfl) ()
    · rename_i hn
      exact ⟨h, rfl, (store_none hs hf (by simpa using hn)).symm⟩

theorem releaseLarge_simulates (h : t.Tidy) (va : VirtualAddress) :
    Simulates (t.releaseLarge va) (t.space.releaseLarge va) := by
  have harea : t.space.area = t.area := rfl
  unfold releaseLarge AddressSpace.releaseLarge
  by_cases hi : va.slotIndex = selfMapSlot
  · rw [if_pos hi, harea, hi, area_selfMap]; exact ⟨h, rfl, rfl⟩
  · rw [if_neg hi, harea]
    cases hc : (t.slot va.slotIndex).content? with
    | none => rw [area_of_absent hi hc]; exact ⟨h, rfl, rfl⟩
    | some c =>
      cases c with
      | table f l => rw [area_of_table hi (table?_eq_some_iff.2 ⟨l, hc⟩)]; exact ⟨h, rfl, rfl⟩
      | large q l => rw [area_of_large hi hc]; exact ⟨(h.release hc).call _, rfl, space_release h hc⟩

theorem mapPages_simulates (va : VirtualAddress) (first : Page .virtual .small) (frame : Frame)
    (flags : EntryBits) (n : Nat) : ∀ (i : Nat) {t : Tables}, t.Tidy →
      Simulates (t.mapPages va first frame flags i n) (t.space.mapPages va first frame flags i n) := by
  induction n with
  | zero => intro i t h; exact ⟨h, rfl, rfl⟩
  | succ n ih =>
    intro i t h
    unfold mapPages AddressSpace.mapPages
    cases first.advance? i with
    | none => exact ⟨h, rfl, rfl⟩
    | some p =>
      cases frame.advance? i with
      | none => exact ⟨h, rfl, rfl⟩
      | some f =>
        obtain ⟨ht, ha, hs⟩ := map_simulates h p.base f.base flags
        simp only
        generalize t.map p.base f.base flags = r at ht ha hs ⊢
        generalize t.space.map p.base f.base flags = r' at ha hs ⊢
        obtain ⟨r, t'⟩ := r
        obtain ⟨r', a'⟩ := r'
        cases ha
        cases hs
        match r with
        | .ok () => exact ih (i + 1) ht
        | .error e => exact ⟨ht, rfl, rfl⟩

theorem unmapPages_simulates (first : Page .virtual .small) (n : Nat) : ∀ (i : Nat) {t : Tables}, t.Tidy →
    Simulates ((), t.unmapPages first i n) ((), t.space.unmapPages first i n) := by
  induction n with
  | zero => intro i t h; exact ⟨h, rfl, rfl⟩
  | succ n ih =>
    intro i t h
    unfold unmapPages AddressSpace.unmapPages
    cases first.advance? i with
    | none => exact ⟨h, rfl, rfl⟩
    | some p =>
      obtain ⟨ht, -, hs⟩ := unmap_simulates h p.base
      have hs : (t.unmap p.base).space = t.space.unmap p.base := hs
      simp only
      rw [← hs]
      exact ih (i + 1) ht

/-! ## Questions -/

theorem translate_space (h : t.Tidy) (hi : va.slotIndex ≠ selfMapSlot) :
    t.translate va = t.space.translate va := by
  have harea : t.space.area = t.area := rfl
  unfold translate AddressSpace.translate
  rw [harea]
  cases hc : (t.slot va.slotIndex).content? with
  | none => rw [area_of_absent hi hc]
  | some c =>
    cases c with
    | large q l =>
      obtain ⟨-, -, he, rfl, rfl⟩ := (h.sound.shape _).of_content?_eq_large hc
      rw [area_of_large hi hc, he]
      exact congrArg (fun w => some (_, EntryBits.mk w)) (DirEntry.flags_large va.slotIndex.identity)
    | table f l =>
      rw [area_of_table hi (table?_eq_some_iff.2 ⟨l, hc⟩)]
      simp only [pages, EntryBits.asMapping, EntryBits.mapping?]
      by_cases hp : (t.entry f va.entryIndex).present = true
      · simp only [hp, if_true]; rfl
      · simp only [hp]; rfl

theorem regionOf_space (t : Tables) (va : VirtualAddress) :
    t.regionOf va = (t.space.area va.slotIndex).region := by
  show Region.ofSlot _ _ = (t.area va.slotIndex).region
  unfold Region.ofSlot area
  by_cases hi : va.slotIndex = selfMapSlot
  · rw [if_pos hi, if_pos hi]; rfl
  · rw [if_neg hi, if_neg hi]
    cases (t.slot va.slotIndex).content? with
    | none => rfl
    | some c => cases c <;> rfl

/-- The present entries of a table are the pages that are mapped. -/
theorem mappings_space (h : t.Tidy) (hi : i ≠ selfMapSlot) (hf : t.table? i = some f) : t.mappings f =
    (List.finRange 1024).filterMap fun k => (t.pages f k).map fun m => (k, m.entry) := by
  unfold mappings
  generalize List.finRange 1024 = ks
  induction ks with
  | nil => rfl
  | cons k ks ih =>
    have hshown := EntryBits.shown_asMapping (h.blank i f hi hf k)
    rw [List.map_cons, List.filter_cons, List.filterMap_cons, ih, pages]
    by_cases hp : (t.entry f k).present = true
    · rw [EntryBits.asMapping, if_pos hp] at hshown ⊢
      simp only [hp, if_true, Option.map_some]
      exact congrArg (fun e => (k, e) :: _) hshown.symm
    · rw [EntryBits.asMapping, if_neg hp]
      simp only [hp]; rfl

theorem entriesOf_space (h : t.Tidy) (i : SlotIndex) : t.entriesOf i = t.space.entriesOf i := by
  have harea : t.space.area = t.area := rfl
  unfold entriesOf AddressSpace.entriesOf
  rw [harea]
  by_cases hi : i = selfMapSlot
  · rw [if_pos hi, hi, area_selfMap]
  · rw [if_neg hi]
    cases hc : (t.slot i).content? with
    | none => rw [area_of_absent hi hc]
    | some c =>
      cases c with
      | large q l => rw [area_of_large hi hc]
      | table f l =>
        have hf := table?_eq_some_iff.2 ⟨l, hc⟩
        rw [area_of_table hi hf]
        exact congrArg some (mappings_space h hi hf)

theorem layout_space (t : Tables) : t.layout = t.space.layout := by
  unfold layout AddressSpace.layout
  simp only [regionOf_space, slotIndex_base]

/-! ## Steps -/

theorem useEntry_simulates (h : t.Tidy) (hi : va.slotIndex ≠ selfMapSlot)
    (hf : t.table? va.slotIndex = some f) (w : Option EntryWrite) :
    Simulates (t.useEntry ⟨f, va.entryIndex⟩ w) (t.space.useEntry va (t.pages f) w) := by
  match w with
  | none => exact ⟨h, (EntryBits.shown_asMapping (h.blank _ f hi hf _)).symm, rfl⟩
  | some .clear =>
    refine ⟨h.setEntry hi hf .absent fun _ => rfl, rfl, ?_⟩
    exact (space_setEntry h hi hf .absent).trans (by rw [EntryBits.asMapping_absent]; rfl)
  | some (.leaf pa flags) =>
    refine ⟨h.setEntry hi hf _ (leaf_not_blank _ _), (EntryBits.entry_ofFlags _ _).symm, ?_⟩
    exact (space_setEntry h hi hf _).trans (by rw [EntryBits.asMapping_leaf]; rfl)

theorem locate_simulates (h : t.Tidy) (va : VirtualAddress) (create : Bool) (w : Option EntryWrite) :
    Simulates (t.step (.locate va create w)) (t.space.step (.locate va create w)) := by
  have hl := located t va create
  unfold step AddressSpace.step
  simp only
  generalize t.locate va create = r at hl ⊢
  obtain ⟨r, t'⟩ := r
  obtain ⟨ht', hlook⟩ := lookup_space h hl
  rw [hlook]
  match r with
  | .error e => exact ⟨ht', rfl, rfl⟩
  | .ok none => exact ⟨ht', rfl, rfl⟩
  | .ok (some ⟨f, k⟩) =>
    obtain ⟨hi, hf, rfl⟩ := hl.place h.sound
    obtain ⟨ht, ha, hs⟩ := useEntry_simulates ht' hi hf w
    exact ⟨ht, congrArg (fun e => Except.ok (Answer.entry e)) ha, hs⟩

/-- Every step keeps the tables tidy and does to the address space what the address space does; a
step whose answer is public also has its answer. -/
theorem step_simulates (h : t.Tidy) (p : SpaceStep) : (t.step p).2.Tidy ∧
    (t.step p).2.space = (t.space.step p).2 ∧ (p.Public → (t.step p).1 = (t.space.step p).1) := by
  cases p with
  | map va pa flags =>
    obtain ⟨ht, ha, hs⟩ := map_simulates h va pa flags
    exact ⟨ht, hs, fun _ => congrArg Space.done ha⟩
  | mapSpan va pa len flags =>
    obtain ⟨ht, ha, hs⟩ := mapPages_simulates va (va.page .small) (pa.page .small) flags
      (Space.pagesInSpan va len) 0 h
    exact ⟨ht, hs, fun _ => congrArg Space.done ha⟩
  | unmap va =>
    obtain ⟨ht, -, hs⟩ := unmap_simulates h va
    exact ⟨ht, hs, fun _ => rfl⟩
  | unmapSpan va len =>
    obtain ⟨ht, -, hs⟩ := unmapPages_simulates (va.page .small) (Space.pagesInSpan va len) 0 h
    exact ⟨ht, hs, fun _ => rfl⟩
  | releaseLarge va =>
    obtain ⟨ht, ha, hs⟩ := releaseLarge_simulates h va
    exact ⟨ht, hs, fun _ => congrArg Space.done ha⟩
  | locate va create w =>
    obtain ⟨ht, ha, hs⟩ := locate_simulates h va create w
    exact ⟨ht, hs, fun _ => ha⟩
  | translate va =>
    exact ⟨h, rfl, fun hp => congrArg (fun r => Except.ok (Answer.ofOption _ r)) (translate_space h hp)⟩
  | regionOf va => exact ⟨h, rfl, fun _ => congrArg (fun r => Except.ok (Answer.region r)) (regionOf_space t va)⟩
  | slotContent n =>
    have hstep : (t.step (.slotContent n)).2 = t := by
      simp only [step]
      cases checkIndex n <;> rfl
    rw [hstep]
    exact ⟨h, rfl, fun hp => hp.elim⟩
  | entriesOf n =>
    simp only [step, AddressSpace.step]
    cases checkIndex n with
    | ok i => exact ⟨h, rfl, fun _ => congrArg (fun r => Except.ok (Answer.ofOption _ r)) (entriesOf_space h i)⟩
    | error e => exact ⟨h, rfl, fun _ => rfl⟩
  | layout => exact ⟨h, rfl, fun _ => congrArg (fun r => Except.ok (Answer.layout r)) (layout_space t)⟩

end Tables

/-! ## Boot -/

section Boot

variable {m : Machine} {root table : Frame} {pool : FramePool} (hr : m.ram.Holds root)
  (ht : m.ram.Holds table) (hne : table ≠ root)

include hr ht hne

theorem bootTables_tidy (h : (bootTables m root table pool).Sound) :
    (bootTables m root table pool).Tidy where
  sound := h
  blank i f hi hf k := by
    rw [table?_bootTables hr] at hf
    split at hf
    · cases hf
      rw [entry_bootTables hr ht hne]
      exact Tables.leaf_not_blank _ _
    · cases hf

theorem space_bootTables : (bootTables m root table pool).space = .boot pool.free := by
  refine AddressSpace.ext (funext ?_) rfl
  intro i
  show (bootTables m root table pool).area i = _
  have hslot : (bootTables m root table pool).slot i = (bootDirectory root table).get i :=
    slot_bootTables hr i
  rw [bootDirectory_get] at hslot
  simp only [AddressSpace.boot, Fin.val_eq_zero_iff]
  by_cases h0 : i = 0
  · subst h0
    rw [Tables.area_of_table (by decide) (by rw [table?_bootTables hr, if_pos rfl])]
    simp only [if_true]
    refine congrArg Area.table (funext ?_)
    intro k
    rw [Tables.pages, entry_bootTables hr ht hne, EntryBits.asMapping_leaf]
    refine congrArg some (Mapping.ext rfl ?_)
    show EntryBits.supervisorRw.bits &&& 0xFFF ||| 1 = 0x003
    decide
  · simp only [h0, if_false] at hslot ⊢
    by_cases hs : i = selfMapSlot
    · simp only [hs, Tables.area_selfMap, if_true]
    · simp only [hs, if_false] at hslot ⊢
      exact Tables.area_of_large hs (by rw [hslot]; exact DirEntry.content?_large _ _)

end Boot

/-! ## Runs -/

namespace Holding

variable {u : Holding} {t : Tables}

theorem Backed.run_space (h : Backed .windows u t) (ht : t.Tidy) (ps : List SpaceStep) :
    ∃ t', t'.Tidy ∧ t'.space = t.space.run ps ∧ Backed .windows (u.run (ps.map .space)) t' := by
  induction ps generalizing u t with
  | nil => exact ⟨t, ht, rfl, h⟩
  | cons p ps ih =>
    have hf : Scope.windows.Follows p := Or.inr rfl
    obtain ⟨htidy, hspace, -⟩ := Tables.step_simulates ht p
    obtain ⟨t', ht', hs', h'⟩ := ih (h.step_space hf).2.2 htidy
    exact ⟨t', ht', by rw [hs', hspace]; rfl, h'⟩

/-- One harmless event leaves no stray words. -/
theorem Backed.next_tidy (h : Backed .windows u t) (ht : t.Tidy) {e : Event} (hf : u.Harmless e) :
    ∃ t', t'.Tidy ∧ Backed .windows (u.next e) t' := by
  cases e with
  | space p => exact ⟨_, (Tables.step_simulates ht p).1, (h.step_space (Or.inr rfl)).2.2⟩
  | pool p =>
    have h' := h.step_pool hf
    exact ⟨_, ⟨h'.sound, ht.blank⟩, h'⟩
  | cache va => exact ⟨t, ht, { h with mirrors := h.mirrors.cacheWalk h.sound va }⟩

theorem Backed.run_tidy {es : List Event} (h : Backed .windows u t) (ht : t.Tidy) (hf : u.HarmlessRun es) :
    ∃ t', t'.Tidy ∧ Backed .windows (u.run es) t' := by
  induction es generalizing u t with
  | nil => exact ⟨t, ht, h⟩
  | cons e es ih =>
    obtain ⟨t₁, ht₁, h₁⟩ := h.next_tidy ht hf.1
    exact ih h₁ ht₁ hf.2

/-- After boot and a harmless run there are tables without stray words. -/
theorem Booted.run_tidy {es : List Event} (hb : u.Booted) (hf : u.HarmlessRun es) :
    ∃ t, t.Tidy ∧ Backed .windows (u.run es) t := by
  obtain ⟨m, root, table, pool, hr, ht, hne, h⟩ := hb.backed .windows
  exact h.run_tidy (bootTables_tidy hr ht hne h.sound) hf

/-- The machine answers every public step as the address space `a` does. -/
structure Implements (u : Holding) (a : AddressSpace) : Prop where
  wellFormed : a.WellFormed
  free : u.session.machine.pool.free = a.free
  answers : ∀ p : SpaceStep, p.Public → (u.session.step (.space p)).1 = (a.step p).1

theorem Backed.implements (h : Backed .windows u t) (ht : t.Tidy) : u.Implements t.space where
  wellFormed := h.sound.wellFormed
  free := congrArg FramePool.free h.mirrors.pool
  answers p hp := by
    have hf : Scope.windows.Follows p := Or.inr rfl
    rw [(h.step_space hf).1, (Tables.step_simulates ht p).2.2 hp]

/-- After any steps, a booted machine implements the address space of boot after the same steps. -/
theorem implements_run (hb : u.Booted) (ps : List SpaceStep) : (u.run (ps.map .space)).Implements
    ((AddressSpace.boot u.session.machine.pool.free).run ps) := by
  obtain ⟨m, root, table, pool, hr, ht, hne, h⟩ := hb.backed .windows
  obtain ⟨t', ht', hs', h'⟩ := h.run_space (bootTables_tidy hr ht hne h.sound) ps
  have hfree : u.session.machine.pool.free = pool.free := congrArg FramePool.free h.mirrors.pool
  rw [hfree, ← space_bootTables hr ht hne, ← hs']
  exact h'.implements ht'

theorem implements_run_small : (smallBooted.run
    ([.releaseLarge ⟨0x400000⟩, .map ⟨0x400000⟩ ⟨0x5000⟩ ⟨0x207⟩, .unmap ⟨0x3000⟩].map .space)).Implements
    ((AddressSpace.boot smallBooted.session.machine.pool.free).run
      [.releaseLarge ⟨0x400000⟩, .map ⟨0x400000⟩ ⟨0x5000⟩ ⟨0x207⟩, .unmap ⟨0x3000⟩]) :=
  implements_run booted_small _

end Holding

end Paging
