import Paging.Proofs.Tables

/-!
# What a processor may have cached

A cached translation outlives the tables it was read from. `Translations` is a set of translations,
and `Tlb.Within` says that a processor has cached none outside of it. A write to the tables leaves
that set alone, dropping a page takes the page out of it, a walk puts one translation in.

Against these sets stand the translations that tables vouch for (`Tables.translations`): a page must
translate as a walk does, except that the window of an absent slot may be stale. A change of the tables
leaves most walks as they were (`walk_setEntry`, `walk_setSlot`), and what is vouched for with them.
-/

namespace Paging

structure Translations where
  small : Page .virtual .small → Frame → Prop
  large : Page .virtual .large → Page .physical .large → Prop

namespace Translations

/-- The translations of `A` that dropping page `p` leaves. -/
def drop (A : Translations) (p : Page .virtual .small) : Translations where
  small q f := q ≠ p ∧ A.small q f
  large r q := r ≠ p.region ∧ A.large r q

/-- The translations of `A`, and that of page `p` to frame `f`. -/
def add (A : Translations) (p : Page .virtual .small) (f : Frame) : Translations where
  small q g := (q = p ∧ g = f) ∨ A.small q g
  large := A.large

instance : LE Translations :=
  ⟨fun A B => (∀ p f, A.small p f → B.small p f) ∧ ∀ r q, A.large r q → B.large r q⟩

theorem add_of_mem {A : Translations} {p : Page .virtual .small} {f : Frame} (h : A.small p f) :
    A.add p f = A := by
  have hs : (A.add p f).small = A.small := by
    funext q g
    simp only [add, eq_iff_iff, or_iff_right_iff_imp]
    rintro ⟨rfl, rfl⟩; exact h
  rw [show A.add p f = ⟨(A.add p f).small, A.large⟩ from rfl, hs]

end Translations

namespace Tlb

variable {b : Tlb} {A B : Translations} {p : Page .virtual .small} {f : Frame}

structure Within (b : Tlb) (A : Translations) : Prop where
  small : ∀ p f, (p, f) ∈ b.small → A.small p f
  large : ∀ r q, (r, q) ∈ b.large → A.large r q

theorem Within.mono (h : b.Within A) (hAB : A ≤ B) : b.Within B where
  small p f hp := hAB.1 p f (h.small p f hp)
  large r q hr := hAB.2 r q (h.large r q hr)

theorem within_empty (A : Translations) : empty.Within A := by
  constructor
  · intro p f hp
    simp [empty] at hp
  · intro r q hr
    simp [empty] at hr

theorem Within.drop (h : b.Within A) (p : Page .virtual .small) : (b.drop p).Within (A.drop p) where
  small q f hq := by
    obtain ⟨hq, hne⟩ := List.mem_filter.1 hq
    exact ⟨by simpa using hne, h.small q f hq⟩
  large r q hr := by
    obtain ⟨hr, hne⟩ := List.mem_filter.1 hr
    exact ⟨by simpa using hne, h.large r q hr⟩

theorem Within.insertSmall (h : b.Within A) (p : Page .virtual .small) (f : Frame) :
    (b.insertSmall p f).Within (A.add p f) where
  small q g hq := by
    rcases List.mem_cons.1 hq with hq | hq
    · exact Or.inl (Prod.mk.inj hq)
    · exact Or.inr (h.small q g (List.mem_filter.1 hq).1)
  large := h.large

theorem Within.insertLarge (h : b.Within A) {r : Page .virtual .large} {q : Page .physical .large}
    (hr : A.large r q) : (b.insertLarge r q).Within A where
  small := h.small
  large r' q' hr' := by
    rcases List.mem_cons.1 hr' with hr' | hr'
    · obtain ⟨rfl, rfl⟩ := Prod.mk.inj hr'; exact hr
    · exact h.large r' q' (List.mem_filter.1 hr').1

theorem mem_of_lookup {α β : Type} [DecidableEq α] {xs : List (α × β)} {a : α} {b : β}
    (h : xs.lookup a = some b) : (a, b) ∈ xs := by
  obtain ⟨l₁, l₂, rfl, -⟩ := List.lookup_eq_some_iff.1 h
  simp

/-- A page that translates from the cache does so by an entry of its own or of its region. -/
theorem Within.of_frame? (h : b.Within A) (hf : b.frame? p = some f) :
    A.small p f ∨ ∃ q, A.large p.region q ∧ f = q.part p.place := by
  unfold frame? at hf
  split at hf
  · rename_i g hg
    obtain rfl : g = f := by simpa using hf
    exact Or.inl (h.small p g (mem_of_lookup hg))
  · obtain ⟨q, hq, rfl⟩ := Option.map_eq_some_iff.1 hf
    exact Or.inr ⟨q, h.large _ q (mem_of_lookup hq), rfl⟩

end Tlb

/-! ## What tables vouch for -/

/-- Which addresses are watched: all, or the windows alone. -/
inductive Scope where
  | windows
  | all

/-- Whether the addresses of slot `i` are watched. -/
def Scope.Covers (s : Scope) (i : SlotIndex) : Prop :=
  match s with
  | windows => i = selfMapSlot
  | all => True

theorem Scope.covers_selfMap (s : Scope) : s.Covers selfMapSlot := by
  cases s <;> trivial

namespace Tables

/-- A walk takes page `p` to frame `f`. -/
def Gives (t : Tables) (p : Page .virtual .small) (f : Frame) : Prop :=
  ∃ s e, t.walk p.base = .small s e ∧ Walk.frameOf e = f

/-- A walk takes the whole region `r` to the 4 MiB page `q`. -/
def GivesLarge (t : Tables) (r : Page .virtual .large) (q : Page .physical .large) : Prop :=
  ∃ s, t.walk r.base = .large s ∧ Walk.pageOf s = q

/-- Page `p` is the window of an absent slot. -/
def Vacant (t : Tables) (p : Page .virtual .small) : Prop :=
  p.base.slotIndex = selfMapSlot ∧ ∃ s, t.walk p.base = .entryAbsent s

/-- The translations that may be cached while the tables are `t`. -/
def translations (t : Tables) (s : Scope) : Translations where
  small p f := s.Covers p.base.slotIndex → t.Gives p f ∨ t.Vacant p
  large r q := s.Covers r.base.slotIndex → t.GivesLarge r q

variable {t t' : Tables} {s : Scope} {i : SlotIndex} {f : Frame} {p : Page .virtual .small}
  {r : Page .virtual .large} {q : Page .physical .large} {va : VirtualAddress}

/-! ### Walks that a change leaves alone -/

theorem walk_congr (h : t.Sound) (h' : t'.Sound) (hslot : t'.slot va.slotIndex = t.slot va.slotIndex)
    (hentry : ∀ f, t.table? va.slotIndex = some f → t'.entry f va.entryIndex = t.entry f va.entryIndex) :
    t'.walk va = t.walk va := by
  rw [h.walk_eq, h'.walk_eq, hslot]
  split
  · rfl
  · rfl
  · rename_i f l hc
    rw [hentry f (table?_eq_some_iff.2 ⟨l, hc⟩)]

theorem walk_setEntry (h : t.Sound) (hf : t.table? i = some f) (hi : i ≠ selfMapSlot)
    {j : EntryIndex} (hne : ¬(va.slotIndex = i ∧ va.entryIndex = j)) (e : EntryBits) :
    (t.setEntry f j e).walk va = t.walk va := by
  have hram := h.holds_table hf
  refine walk_congr h (h.setEntry hf hi j e) (slot_setEntry hram (h.table_ne_root hf hi) j e _) ?_
  intro g hg
  rw [entry_setEntry hram, if_neg]
  rintro ⟨rfl, rfl⟩
  exact hne ⟨h.distinct _ _ _ hg hf, rfl⟩

/-- A slot matters to the addresses of its region and to its window. -/
theorem walk_setSlot (h : t.Sound) {e : DirEntry} (h' : (t.setSlot i e).Sound) (hi : va.slotIndex ≠ i)
    (hw : va.slotIndex = selfMapSlot → va.entryIndex ≠ i) : (t.setSlot i e).walk va = t.walk va := by
  refine walk_congr h h' (by rw [slot_setSlot h.holds_root, if_neg hi]) ?_
  intro g hg
  by_cases hs : va.slotIndex = selfMapSlot
  · rw [hs, h.table?_selfMap] at hg
    obtain rfl := Option.some.inj hg
    have hroot : (t.setSlot i e).entry t.root va.entryIndex = ⟨((t.setSlot i e).slot va.entryIndex).bits⟩ :=
      rfl
    rw [hroot, slot_setSlot h.holds_root, if_neg (hw hs), entry_root]
  · exact entry_setSlot h.holds_root (h.table_ne_root hg hs) i e _

/-- A walk starts with the page of an address. -/
theorem walk_page (h : t.Sound) (va : VirtualAddress) : t.walk (va.page .small).base = t.walk va := by
  rw [h.walk_eq, h.walk_eq, Address.slotIndex_base_page, Address.entryIndex_base_page]

/-- A walk that ends in the slot ends there for the whole region. -/
theorem walk_region (h : t.Sound) {w : UInt32} (hw : t.walk va = .large w) :
    t.walk (va.page .large).base = .large w := by
  rw [h.walk_eq] at hw
  rw [h.walk_eq, Address.slotIndex_base_region]
  cases hc : (t.slot va.slotIndex).content? with
  | none => rw [hc] at hw; cases hw
  | some c =>
    rw [hc] at hw
    cases c with
    | large q l => exact hw
    | table f l => simp only at hw; split at hw <;> cases hw

/-- Through the self-map, a present slot is seen as the frame in its upper bits. -/
theorem walk_window (h : t.Sound) (hva : va.slotIndex = selfMapSlot) : t.walk va =
    if (t.slot va.entryIndex).present then .small (t.slot selfMapSlot).bits (t.slot va.entryIndex).bits
    else .entryAbsent (t.slot selfMapSlot).bits := by
  rw [h.walk_eq, hva, h.slot_selfMap, DirEntry.content?_link]
  rfl

/-! ### What is vouched for -/

theorem gives_window (h : t.Sound) (hf : t.table? i = some f) :
    t.Gives ((tableView i).page .small) f := by
  obtain ⟨hp, -, hfr⟩ := DirEntry.of_table?_eq_some hf
  refine ⟨(t.slot selfMapSlot).bits, (t.slot i).bits, ?_, hfr⟩
  rw [walk_window h (by simp), Address.entryIndex_base_page, entryIndex_tableView,
    if_pos ((DirEntry.present_iff _).2 hp)]

/-- What is cached for the window of a table is that table. -/
theorem eq_of_translations_window (h : t.Sound) (hf : t.table? i = some f) {g : Frame}
    (hg : (t.translations s).small ((tableView i).page .small) g) : g = f := by
  obtain ⟨w, e, hwalk, hfe⟩ := gives_window h hf
  rcases hg (by simp [s.covers_selfMap]) with
    ⟨w', e', hwalk', hge⟩ | ⟨-, w', hwalk'⟩
  · rw [hwalk] at hwalk'
    cases hwalk'
    exact hge.symm.trans hfe
  · rw [hwalk] at hwalk'; cases hwalk'

/-- What is cached for a page that a walk translates is what the walk gives. -/
theorem eq_of_translations_all {w e : UInt32} (hw : t.walk p.base = .small w e)
    (hA : (t.translations .all).small p f) : Walk.frameOf e = f := by
  rcases hA trivial with ⟨w', e', hw', hf⟩ | ⟨-, w', hw'⟩
  · rw [hw] at hw'; cases hw'; exact hf
  · rw [hw] at hw'; cases hw'

/-- The self-map is never cached as a 4 MiB page. -/
theorem not_translations_large (h : t.Sound) :
    ¬(t.translations s).large (SlotIndex.region selfMapSlot) q := by
  intro hq
  have hslot : (SlotIndex.region selfMapSlot).base.slotIndex = selfMapSlot := slotIndex_base selfMapSlot
  obtain ⟨w, hwalk, -⟩ := hq (by rw [hslot]; exact s.covers_selfMap)
  rw [walk_window h hslot] at hwalk
  split at hwalk <;> cases hwalk

/-- Nothing is cached for a 4 KiB page of a slot without a table. -/
theorem not_gives_of_table?_eq_none (h : t.Sound) (hn : t.table? p.base.slotIndex = none) :
    ¬(t.Gives p f ∨ t.Vacant p) := by
  rintro (⟨w, e, hwalk, -⟩ | ⟨hs, w, hwalk⟩)
  · rw [h.walk_eq] at hwalk
    split at hwalk
    · cases hwalk
    · cases hwalk
    · rename_i g l hc
      rw [table?_eq_some_iff.2 ⟨l, hc⟩] at hn; cases hn
  · rw [hs, h.table?_selfMap] at hn; cases hn

theorem gives_congr (hw : t'.walk p.base = t.walk p.base) : t.Gives p f ∨ t.Vacant p →
    t'.Gives p f ∨ t'.Vacant p := by
  simp only [Gives, Vacant, hw, imp_self]

theorem givesLarge_congr (hw : t'.walk r.base = t.walk r.base) : t.GivesLarge r q → t'.GivesLarge r q := by
  simp only [GivesLarge, hw, imp_self]

end Tables

end Paging
