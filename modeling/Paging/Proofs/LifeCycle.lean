import Paging.Proofs.Runs

/-!
# The life cycle of a slot

A slot starts as a 4 MiB page, may be cleared, and may then get a table; it never goes back, and its
word changes in no other way. `Holding.Precedes` says so of two moments of a run, in raw words, and
`Holding.Stage` counts the frames: those that the paging operations took from the pool and did not
give back are the two of boot and one for each slot that has got a table since.

`Holding.StepsForward` says what a single step may do. A table is made only for a slot that was absent,
and only for an address that the step is to create the table of (`SpaceStep.Creates`); each costs one
frame, and a step that finds the pool empty leaves its slot absent. All of it holds at every moment of
every fair run (`lifeCycle_run`).
-/

namespace Paging

/-- What the word of a slot makes of its region. -/
inductive Phase where
  | large
  | absent
  | table
  deriving DecidableEq

namespace Phase

/-- The order in which a region may pass through the phases. -/
def rank : Phase → Nat
  | large => 0
  | absent => 1
  | table => 2

/-- As the processor reads the word. -/
def ofWord (w : UInt32) : Phase :=
  if w &&& 0x01 = 0 then absent else if w &&& 0x80 ≠ 0 then large else table

def ofContent : Option SlotContent → Phase
  | none => absent
  | some (.large ..) => large
  | some (.table ..) => table

variable {e : DirEntry}

theorem ofWord_bits (e : DirEntry) : ofWord e.bits = ofContent e.content? := by
  rw [DirEntry.content?_eq, ofWord]
  split
  · rfl
  · split <;> rfl

theorem ofWord_eq_absent_iff : ofWord e.bits = absent ↔ e.content? = none := by
  rw [ofWord_bits]
  rcases e.content? with _ | (_ | _) <;> simp [ofContent]

theorem ofWord_eq_large_iff : ofWord e.bits = large ↔ ∃ q l, e.content? = some (.large q l) := by
  rw [ofWord_bits]
  rcases e.content? with _ | (_ | _) <;> simp [ofContent]

theorem ofWord_eq_table_iff : ofWord e.bits = table ↔ e.table?.isSome := by
  rw [ofWord_bits, DirEntry.table?]
  rcases e.content? with _ | (_ | _) <;> simp [ofContent]

@[simp] theorem ofWord_absent : ofWord DirEntry.absent.bits = absent :=
  ofWord_eq_absent_iff.2 DirEntry.content?_absent

@[simp] theorem ofWord_large (flags : LargeLeaf) (q : Page .physical .large) :
    ofWord (DirEntry.large flags q).bits = large :=
  ofWord_eq_large_iff.2 ⟨q, _, DirEntry.content?_large flags q⟩

@[simp] theorem ofWord_link (flags : TableLink) (f : Frame) : ofWord (DirEntry.link flags f).bits = table :=
  ofWord_eq_table_iff.2 (by rw [DirEntry.table?_link]; rfl)

end Phase

/-- The addresses whose table the step makes, if it is missing. -/
def SpaceStep.Creates : SpaceStep → VirtualAddress → Prop
  | .map va _ _, vb => vb = va
  | .mapSpan va _ len _, vb => ∃ n < Space.pagesInSpan va len, ∃ p, (va.page .small).advance? n = some p ∧
    vb = p.base
  | .locate va create _, vb => create = true ∧ vb = va
  | _, _ => False

/-- A slot that goes forward stays the same or comes into a later phase. -/
theorem DirEntry.Forward.rank {root : Frame} {i : SlotIndex} {e e' : DirEntry} (h : e.Forward e')
    (hs : Shape root i e) :
    e' = e ∨ (Phase.ofWord e.bits).rank < (Phase.ofWord e'.bits).rank := by
  cases h with
  | same => exact Or.inl rfl
  | cleared hn =>
    cases hs with
    | absent => exact Or.inl rfl
    | large => right; simp [Phase.rank]
    | selfMap | bootTable | table => simp at hn
  | linked hn f =>
    cases hs with
    | absent | large => right; simp [Phase.rank]
    | selfMap | bootTable | table => simp at hn

namespace Tables

variable {t t' t'' : Tables} {i : SlotIndex} {f : Frame} {va : VirtualAddress} {create : Bool}
  {S S' : VirtualAddress → Prop}

/-! ## What makes tables -/

/-- Slots change only where an absent one gets a table, for an address of `S`. -/
def Fills (S : VirtualAddress → Prop) (t t' : Tables) : Prop :=
  ∀ i, t'.slot i = t.slot i ∨
    t.slot i = .absent ∧ (∃ f, t'.slot i = .link .userRw f) ∧ ∃ va, S va ∧ va.slotIndex = i

namespace Fills

theorem of_slot_eq (h : ∀ i, t'.slot i = t.slot i) : Fills S t t' := fun i => Or.inl (h i)

theorem mono (h : Fills S t t') (hS : ∀ va, S va → S' va) : Fills S' t t' := by
  intro i
  rcases h i with heq | ⟨habs, hlink, va, hva, hi⟩
  · exact Or.inl heq
  · exact Or.inr ⟨habs, hlink, va, hS va hva, hi⟩

theorem trans (h : Fills S t t') (h' : Fills S t' t'') : Fills S t t'' := by
  intro i
  rcases h i with heq | ⟨habs, ⟨f, hf⟩, hva⟩
  · rw [← heq]
    exact h' i
  · rcases h' i with heq' | ⟨habs', -⟩
    · exact Or.inr ⟨habs, ⟨f, heq'.trans hf⟩, hva⟩
    · -- a slot that was filled is not absent
      have htable := congrArg DirEntry.table? (hf.symm.trans habs')
      simp at htable

end Fills

/-- What an operation with the answer `r` did to the slots, if it was to create the tables for `S`. An
empty pool has left a slot absent that was to get a table. -/
structure Makes {α : Type} (S : VirtualAddress → Prop) (t : Tables) (r : Except MapRefusal α)
    (t' : Tables) : Prop where
  fills : Fills S t t'
  exhausted : r = .error .noFrame → t'.pool.free = 0 ∧ ∃ va, S va ∧ t'.slot va.slotIndex = .absent

/-- For more addresses, and with another answer that misses a frame no sooner. -/
theorem Makes.mono {α β : Type} {r : Except MapRefusal α} {r' : Except MapRefusal β} (h : Makes S t r t')
    (hS : ∀ va, S va → S' va) (hr : r' = .error .noFrame → r = .error .noFrame) : Makes S' t r' t' where
  fills := h.fills.mono hS
  exhausted he := by
    obtain ⟨hfree, va, hva, habs⟩ := h.exhausted (hr he)
    exact ⟨hfree, va, hS va hva, habs⟩

theorem Located.makes {r : Except MapRefusal (Option EntryPlace)} (hl : Located t va create r t')
    (h : t.Sound) : Makes (fun vb => create = true ∧ vb = va) t r t' := by
  cases hl with
  | window | large => exact ⟨.of_slot_eq fun _ => rfl, by simp⟩
  | table | absent => exact ⟨.of_slot_eq fun _ => rfl, by simp⟩
  | noFrame hc ht =>
    obtain ⟨-, -, habs⟩ := (h.shape _).of_content?_eq_none hc
    refine ⟨.of_slot_eq fun _ => rfl, ?_⟩
    intro _
    exact ⟨(FramePool.takeLowest?_eq_none_iff h.pool).1 ht, va, ⟨rfl, rfl⟩, habs⟩
  | @created f pool hs hc ht =>
    obtain ⟨-, -, habs⟩ := (h.shape _).of_content?_eq_none hc
    refine ⟨?_, by simp⟩
    intro i
    rw [slot_link h hs hc ht]
    split
    · rename_i hi
      exact Or.inr ⟨hi ▸ habs, ⟨f, rfl⟩, va, ⟨rfl, rfl⟩, hi.symm⟩
    · exact Or.inl rfl

theorem slot_put (h : t.Sound) (hs : i ≠ selfMapSlot) {p : EntryPlace} (hf : t.table? i = some p.table)
    (va : VirtualAddress) (e : EntryBits) (j : SlotIndex) : (t.put va p e).slot j = t.slot j :=
  slot_setEntry_table h hs hf _ e j

theorem map_makes (h : t.Sound) (va : VirtualAddress) (pa : PhysicalAddress) (flags : EntryBits) :
    Makes (· = va) t (t.map va pa flags).1 (t.map va pa flags).2 := by
  have hl := located t va true
  have hsound := hl.sound h
  have hx := hl.makes h
  unfold map
  generalize t.locate va true = r at hl hsound hx ⊢
  obtain ⟨r, t'⟩ := r
  have hfills : Fills (· = va) t t' := hx.fills.mono fun _ hvb => hvb.2
  match r with
  | .error e =>
    refine hx.mono (fun _ hvb => hvb.2) ?_
    intro he
    cases he; rfl
  | .ok none => exact ⟨hfills, by simp⟩
  | .ok (some p) =>
    obtain ⟨hs, hf, -⟩ := hl.place h
    exact ⟨hfills.trans (.of_slot_eq (slot_put hsound hs hf va _)), by simp⟩

/-- The addresses of `n` pages from the `i`-th after `first` on. -/
def PagesFrom (first : Page .virtual .small) (i n : Nat) (va : VirtualAddress) : Prop :=
  ∃ j, i ≤ j ∧ j < i + n ∧ ∃ p, first.advance? j = some p ∧ va = p.base

theorem mapPages_makes (va : VirtualAddress) (first : Page .virtual .small) (frame : Frame)
    (flags : EntryBits) (n : Nat) : ∀ (i : Nat) {t : Tables}, t.Sound →
      Makes (PagesFrom first i n) t (t.mapPages va first frame flags i n).1
        (t.mapPages va first frame flags i n).2 := by
  induction n with
  | zero => intro i t h; exact ⟨.of_slot_eq fun _ => rfl, by simp [mapPages]⟩
  | succ n ih =>
    intro i t h
    unfold mapPages
    cases hp : first.advance? i with
    | none => exact ⟨.of_slot_eq fun _ => rfl, by simp⟩
    | some p =>
      cases hf : frame.advance? i with
      | none => exact ⟨.of_slot_eq fun _ => rfl, by simp⟩
      | some f =>
        have hx := map_makes h p.base f.base flags
        have hsound : (t.map p.base f.base flags).2.Sound := (Performs.map (s := .windows) h _ _ _).sound
        have hfirst : ∀ vb, vb = p.base → PagesFrom first i (n + 1) vb := by
          rintro vb rfl
          exact ⟨i, by omega, by omega, p, hp, rfl⟩
        have hrest : ∀ vb, PagesFrom first (i + 1) n vb → PagesFrom first i (n + 1) vb := by
          rintro vb ⟨j, hle, hlt, hj⟩
          exact ⟨j, by omega, by omega, hj⟩
        simp only
        generalize t.map p.base f.base flags = r at hx hsound ⊢
        obtain ⟨r, t'⟩ := r
        cases r with
        | ok _ =>
          have hy := (ih (i + 1) hsound).mono hrest id
          exact ⟨(hx.fills.mono hfirst).trans hy.fills, hy.exhausted⟩
        | error e => exact hx.mono hfirst id

theorem mapSpan_makes (h : t.Sound) (va : VirtualAddress) (pa : PhysicalAddress) (len : UInt32)
    (flags : EntryBits) :
    Makes (SpaceStep.mapSpan va pa len flags).Creates t
      (t.mapPages va (va.page .small) (pa.page .small) flags 0 (Space.pagesInSpan va len)).1
      (t.mapPages va (va.page .small) (pa.page .small) flags 0 (Space.pagesInSpan va len)).2 := by
  refine (mapPages_makes va (va.page .small) (pa.page .small) flags _ 0 h).mono ?_ id
  rintro vb ⟨j, -, hj, hp⟩
  exact ⟨j, by omega, hp⟩

/-! ## What makes none -/

theorem slot_unmap (h : t.Sound) (va : VirtualAddress) (i : SlotIndex) : (t.unmap va).slot i = t.slot i := by
  have hl := located t va false
  unfold unmap
  generalize t.locate va false = r at hl ⊢
  obtain ⟨r, t'⟩ := r
  cases hl with
  | window | large | absent => rfl
  | @table _ f hs hf =>
    simp only
    split
    · exact slot_put (p := ⟨f, va.entryIndex⟩) h hs hf va _ i
    · rfl

theorem slot_unmapPages (first : Page .virtual .small) (n : Nat) : ∀ (i : Nat) {t : Tables}, t.Sound →
    ∀ j, (t.unmapPages first i n).slot j = t.slot j := by
  induction n with
  | zero => intro i t h j; rfl
  | succ n ih =>
    intro i t h j
    unfold unmapPages
    cases first.advance? i with
    | none => rfl
    | some p =>
      have hsound : (t.unmap p.base).Sound := (Performs.unmap (s := .windows) h _).sound
      exact (ih (i + 1) hsound j).trans (slot_unmap h p.base j)

theorem slot_useEntry (h : t.Sound) (hs : i ≠ selfMapSlot) {p : EntryPlace} (hf : t.table? i = some p.table)
    (w : Option EntryWrite) (j : SlotIndex) : (t.useEntry p w).2.slot j = t.slot j := by
  match w with
  | none => rfl
  | some .clear => exact slot_setEntry_table h hs hf _ _ j
  | some (.leaf pa flags) => exact slot_setEntry_table h hs hf _ _ j

/-- A released slot was the 4 MiB page of boot, and is absent. -/
theorem slot_releaseLarge (h : t.Sound) (va : VirtualAddress) (i : SlotIndex) :
    (t.releaseLarge va).2.slot i = t.slot i ∨
      t.slot i = .large .supervisorRw i.identity ∧ (t.releaseLarge va).2.slot i = .absent ∧
        va.slotIndex = i := by
  unfold releaseLarge
  split
  · exact Or.inl rfl
  · split
    · exact Or.inl rfl
    · exact Or.inl rfl
    · rename_i q l hc
      obtain ⟨-, -, hlarge, -⟩ := (h.shape _).of_content?_eq_large hc
      have hslot : ((t.setSlot va.slotIndex .absent).call
          (.invalidate ((SlotIndex.base va.slotIndex).page .small))).slot i =
            if i = va.slotIndex then .absent else t.slot i := slot_setSlot h.holds_root va.slotIndex i .absent
      simp only [hslot]
      by_cases hi : i = va.slotIndex
      · subst hi
        exact Or.inr ⟨hlarge, if_pos rfl, rfl⟩
      · exact Or.inl (if_neg hi)

theorem releaseLarge_ne_noFrame (t : Tables) (va : VirtualAddress) :
    (t.releaseLarge va).1 ≠ .error .noFrame := by
  unfold releaseLarge
  split
  · simp
  · split <;> simp

/-! ## Steps -/

theorem done_eq_noFrame {r : Except MapRefusal Unit} (h : Space.done r = .error (.map .noFrame)) :
    r = .error .noFrame := by
  cases r with
  | ok u => simp [Space.done] at h
  | error e =>
    simp only [Space.done, Except.error.injEq, StepError.map.injEq] at h
    rw [h]

theorem step_fills (h : t.Sound) {p : SpaceStep} (hp : ∀ va, p ≠ .releaseLarge va) :
    Fills p.Creates t (t.step p).2 := by
  cases p with
  | map va pa flags => exact (map_makes h va pa flags).fills
  | mapSpan va pa len flags => exact (mapSpan_makes h va pa len flags).fills
  | unmap va => exact .of_slot_eq (slot_unmap h va)
  | unmapSpan va len => exact .of_slot_eq (slot_unmapPages _ _ 0 h)
  | releaseLarge va => exact absurd rfl (hp va)
  | locate va create w =>
    have hl := located t va create
    have hsound := hl.sound h
    have hx := hl.makes h
    unfold step
    simp only
    generalize t.locate va create = r at hl hsound hx ⊢
    obtain ⟨r, t'⟩ := r
    match r with
    | .error e => exact hx.fills
    | .ok none => exact hx.fills
    | .ok (some p) =>
      obtain ⟨hs, hf, -⟩ := hl.place h
      exact hx.fills.trans (.of_slot_eq (slot_useEntry hsound hs hf w))
  | slotContent n | entriesOf n =>
    simp only [step]
    split <;> exact .of_slot_eq fun _ => rfl
  | translate | regionOf | layout => exact .of_slot_eq fun _ => rfl

theorem step_exhausted (h : t.Sound) {p : SpaceStep} (hx : (t.step p).1 = .error (.map .noFrame)) :
    (t.step p).2.pool.free = 0 ∧ ∃ va, p.Creates va ∧ (t.step p).2.slot va.slotIndex = .absent := by
  cases p with
  | map va pa flags => exact (map_makes h va pa flags).exhausted (done_eq_noFrame hx)
  | mapSpan va pa len flags => exact (mapSpan_makes h va pa len flags).exhausted (done_eq_noFrame hx)
  | locate va create w =>
    have hl := located t va create
    have hm := hl.makes h
    unfold step at hx ⊢
    simp only at hx ⊢
    generalize t.locate va create = r at hl hm hx ⊢
    obtain ⟨r, t'⟩ := r
    match r with
    | .error e =>
      simp only [Except.error.injEq, StepError.map.injEq] at hx
      exact hm.exhausted (congrArg Except.error hx)
    | .ok none => simp at hx
    | .ok (some p) => simp at hx
  | releaseLarge va => exact absurd (done_eq_noFrame hx) (releaseLarge_ne_noFrame t va)
  | slotContent n | entriesOf n =>
    simp only [step] at hx
    split at hx <;> simp at hx
  | unmap | unmapSpan | translate | regionOf | layout => simp [step] at hx

/-- A region of 4 MiB maps every address to itself. -/
theorem translate_of_identityLarge (h : t.Sound) (hr : t.regionOf va = .identityLarge) :
    t.translate va = some (⟨va.val⟩, ⟨0x83⟩) := by
  unfold regionOf Region.ofSlot at hr
  unfold translate
  split at hr
  · cases hr
  · cases hc : (t.slot va.slotIndex).content? with
    | none => rw [hc] at hr; cases hr
    | some c =>
      cases c with
      | table f l => rw [hc] at hr; cases hr
      | large q l =>
        obtain ⟨-, -, hlarge, rfl, rfl⟩ := (h.shape _).of_content?_eq_large hc
        have hflags : (EntryBits.mk (t.slot va.slotIndex).bits).flags = ⟨0x83⟩ := by
          rw [hlarge]
          exact EntryBits.ext (DirEntry.flags_large _)
        simp only [va.identity_join, hflags]

end Tables

namespace Holding

/-! ## Moments of a run -/

/-- The word of slot `i` of the directory in `root`. -/
def slotWord (u : Holding) (root : Frame) (i : SlotIndex) : Option UInt32 :=
  u.session.machine.ram.word? root i

/-- The slots that have got a table since boot. -/
def tabled (u : Holding) (root : Frame) : Finset SlotIndex :=
  Finset.univ.filter fun i =>
    i.val ≠ 0 ∧ i ≠ selfMapSlot ∧ (u.slotWord root i).map Phase.ofWord = some .table

/-- What holds at every moment. -/
structure Stage (u : Holding) (root : Frame) : Prop where
  first : (u.slotWord root 0).map Phase.ofWord = some .table
  large : ∀ i w, u.slotWord root i = some w → Phase.ofWord w = .large → w = (SlotIndex.base i).val ||| 0x83
  identity : ∀ va, (u.session.step (.space (.regionOf va))).1 = .ok (.region .identityLarge) →
    (u.session.step (.space (.translate va))).1 = .ok (.translation ⟨va.val⟩ ⟨0x83⟩)
  taken : u.session.machine.taken = u.session.machine.returned + 2 + (u.tabled root).card

/-- What holds between a moment and a later one: every slot is as it was, or in a later phase, and no
frame was given back. -/
structure Precedes (u v : Holding) (root : Frame) : Prop where
  slots : ∀ i, ∃ w w', u.slotWord root i = some w ∧ v.slotWord root i = some w' ∧
    (w' = w ∨ (Phase.ofWord w).rank < (Phase.ofWord w').rank)
  returned : v.session.machine.returned = u.session.machine.returned

/-- What the step `p` may do. -/
structure StepsForward (u : Holding) (p : SpaceStep) (root : Frame) : Prop where
  /-- A slot stays as it is; or it was absent and gets the table for an address that the step creates
  one for; or it was a 4 MiB page that the step is to release. -/
  slots : ∀ i, ∃ w w', u.slotWord root i = some w ∧ (u.next (.space p)).slotWord root i = some w' ∧
    (w' = w ∨ (w = 0 ∧ Phase.ofWord w' = .table ∧ ∃ va, p.Creates va ∧ va.slotIndex = i) ∨
      Phase.ofWord w = .large ∧ w' = 0 ∧ ∃ va, p = .releaseLarge va ∧ va.slotIndex = i)
  /-- One frame is taken for each slot that gets a table. -/
  taken : (u.next (.space p)).session.machine.taken =
    u.session.machine.taken + ((u.next (.space p)).tabled root \ u.tabled root).card
  returned : (u.next (.space p)).session.machine.returned = u.session.machine.returned
  /-- A frame is missed only for an absent slot. -/
  exhausted : (u.session.step (.space p)).1 = .error (.map .noFrame) →
    (u.next (.space p)).session.machine.pool.free = 0 ∧
      ∃ va, p.Creates va ∧ (u.next (.space p)).slotWord root va.slotIndex = some 0

variable {u v : Holding} {es es' : List Event} {t t' : Tables}

namespace Backed

theorem slotWord (h : Backed .windows u t) (i : SlotIndex) :
    u.slotWord t.root i = some (t.slot i).bits := by
  rw [Holding.slotWord, h.mirrors.ram]
  exact h.sound.word?_slot i

/-- All tables are those of boot and those since. -/
theorem tabled (h : Backed .windows u t) : t.backed = insert 0 (insert selfMapSlot (u.tabled t.root)) := by
  ext i
  simp only [Tables.backed, Holding.tabled, h.slotWord, Option.map_some, Option.some.injEq,
    Phase.ofWord_eq_table_iff, Finset.mem_filter, Finset.mem_univ, true_and, Finset.mem_insert]
  constructor
  · intro hi
    by_cases h0 : i = 0
    · exact Or.inl h0
    · by_cases hs : i = selfMapSlot
      · exact Or.inr (Or.inl hs)
      · exact Or.inr (Or.inr ⟨Fin.val_ne_zero_iff.2 h0, hs, hi⟩)
  · rintro (rfl | rfl | ⟨-, -, hi⟩)
    · obtain ⟨f, hf⟩ := (h.sound.shape 0).table?_first
      rw [Tables.table?, hf]; rfl
    · rw [h.sound.table?_selfMap]; rfl
    · exact hi

theorem card_backed (h : Backed .windows u t) : t.backed.card = 2 + (u.tabled t.root).card := by
  have hself : selfMapSlot ∉ u.tabled t.root := by simp [Holding.tabled]
  have hzero : (0 : SlotIndex) ∉ insert selfMapSlot (u.tabled t.root) := by
    rw [Finset.mem_insert]
    rintro (h0 | h0)
    · exact absurd h0 (by decide)
    · simp [Holding.tabled] at h0
  rw [h.tabled, Finset.card_insert_of_notMem hzero, Finset.card_insert_of_notMem hself]
  omega

theorem stage (h : Backed .windows u t) (hbal : t.taken = t.returned + t.backed.card) : u.Stage t.root := by
  refine ⟨?_, ?_, ?_, ?_⟩
  · obtain ⟨f, hf⟩ := (h.sound.shape 0).table?_first
    rw [h.slotWord, Option.map_some, Phase.ofWord_eq_table_iff.2 (by rw [hf]; rfl)]
  · intro i w hw hl
    rw [h.slotWord] at hw
    obtain rfl := Option.some.inj hw
    have hshape := h.sound.shape i
    generalize t.slot i = e at hshape hl ⊢
    cases hshape with
    | large => exact DirEntry.bits_large_supervisorRw _
    | selfMap | bootTable | absent | table => simp at hl
  · intro va hr
    rw [(h.step_space (Or.inr rfl)).1] at hr ⊢
    have hregion : t.regionOf va = .identityLarge := by simpa [Tables.step] using hr
    simp only [Tables.step, Tables.translate_of_identityLarge h.sound hregion]
    rfl
  · have hcard := h.card_backed
    rw [h.mirrors.taken, h.mirrors.returned]
    omega

theorem precedes (h : Backed .windows u t) (h' : Backed .windows v t') (hadv : t.Advances t') :
    u.Precedes v t.root := by
  have hword (i : SlotIndex) : v.slotWord t.root i = some (t'.slot i).bits := hadv.root ▸ h'.slotWord i
  refine ⟨?_, ?_⟩
  · intro i
    refine ⟨_, _, h.slotWord i, hword i, ?_⟩
    rcases (hadv.slot i).rank (h.sound.shape i) with heq | hlt
    · exact Or.inl (congrArg DirEntry.bits heq)
    · exact Or.inr hlt
  · rw [h.mirrors.returned, h'.mirrors.returned, hadv.returned]

theorem stepsForward (h : Backed .windows u t) (p : SpaceStep) : u.StepsForward p t.root := by
  obtain ⟨hanswer, hgrows, h'⟩ := h.step_space (p := p) (Or.inr rfl)
  have hword (i : SlotIndex) : (u.next (.space p)).slotWord t.root i = some ((t.step p).2.slot i).bits :=
    hgrows.root ▸ h'.slotWord i
  refine ⟨?_, ?_, (h.precedes h' hgrows.toAdvances).returned, ?_⟩
  · intro i
    refine ⟨_, _, h.slotWord i, hword i, ?_⟩
    by_cases hp : ∃ va, p = .releaseLarge va
    · obtain ⟨va, rfl⟩ := hp
      rcases Tables.slot_releaseLarge h.sound va i with heq | ⟨hlarge, habs, hi⟩
      · exact Or.inl (congrArg DirEntry.bits heq)
      · refine Or.inr (Or.inr ⟨?_, congrArg DirEntry.bits habs, va, rfl, hi⟩)
        rw [hlarge, Phase.ofWord_large]
    · rcases Tables.step_fills h.sound (fun va hva => hp ⟨va, hva⟩) i with heq | ⟨habs, ⟨f, hlink⟩, hva⟩
      · exact Or.inl (congrArg DirEntry.bits heq)
      · refine Or.inr (Or.inl ⟨congrArg DirEntry.bits habs, ?_, hva⟩)
        rw [hlink, Phase.ofWord_link]
  · have hsub : u.tabled t.root ⊆ (u.next (.space p)).tabled t.root := by
      intro i hi
      simp only [Holding.tabled, h.slotWord, hword, Option.map_some, Option.some.injEq,
        Phase.ofWord_eq_table_iff, Finset.mem_filter, Finset.mem_univ, true_and] at hi ⊢
      obtain ⟨f, hf⟩ := Option.isSome_iff_exists.1 hi.2.2
      exact ⟨hi.1, hi.2.1, by rw [(hgrows.slot i).table?_eq_some hf]; rfl⟩
    have hcard := h.card_backed
    have hcard' := hgrows.root ▸ h'.card_backed
    have htaken := hgrows.taken
    have hle := Finset.card_le_card hsub
    rw [h.mirrors.taken, h'.mirrors.taken, Finset.card_sdiff_of_subset hsub]
    omega
  · intro hx
    rw [hanswer] at hx
    obtain ⟨hfree, va, hva, habs⟩ := Tables.step_exhausted h.sound hx
    refine ⟨?_, va, hva, ?_⟩
    · rw [h'.mirrors.pool]; exact hfree
    · rw [hword, habs]; rfl

end Backed

/-! ## Runs -/

/-- Boot makes 4 MiB pages of all slots but the first and the last, and takes two frames. -/
theorem Booted.start (hb : u.Booted) : ∃ t, Backed .windows u t ∧ t.taken = t.returned + t.backed.card ∧
    ∀ i, i ≠ 0 → i ≠ selfMapSlot → t.slot i = .large .supervisorRw i.identity := by
  obtain ⟨v, root, table, p₁, pool, log, hv, h₁, h₂, rfl⟩ := hb.exists_idle
  obtain ⟨hr, -⟩ := holds_boot_frames hv.pool hv.inRam h₁ h₂
  refine ⟨_, hv.backed h₁ h₂ .windows log, ?_, ?_⟩
  · rw [backed_bootTables hr, Finset.card_pair (by decide)]
    exact congrArg (· + 2) hv.balance
  · intro i h0 hs
    rw [slot_bootTables hr, bootDirectory_get, if_neg h0, if_neg hs]

/-- The slots only go forward, from the 4 MiB pages of boot on, and every table has cost one frame. -/
theorem lifeCycle_run (hb : u.Booted) (hf : u.FairRun (es ++ es')) :
    ∃ root, u.session.space = some ⟨some ⟨root⟩⟩ ∧
      (∀ i, i ≠ 0 → i ≠ selfMapSlot → u.slotWord root i = some ((SlotIndex.base i).val ||| 0x83)) ∧
      (u.run es).Stage root ∧ (u.run es).Precedes (u.run (es ++ es')) root ∧
      ∀ p, (u.run es).StepsForward p root := by
  obtain ⟨t, h, hbal, hlarge⟩ := hb.start
  obtain ⟨hf₁, hf₂⟩ := harmlessRun_append.1 hf.harmless
  obtain ⟨t₁, hadv₁, h₁⟩ := h.advance hf₁ fun _ _ => Or.inr rfl
  obtain ⟨t₂, hadv₂, h₂⟩ := h₁.advance hf₂ fun _ _ => Or.inr rfl
  have hbal₁ : t₁.taken = t₁.returned + t₁.backed.card := by
    have htaken := hadv₁.taken
    rw [hadv₁.returned]
    omega
  rw [← run_append] at h₂
  refine ⟨t.root, h.space, ?_, hadv₁.root ▸ h₁.stage hbal₁, hadv₁.root ▸ h₁.precedes h₂ hadv₂, ?_⟩
  · intro i h0 hs
    rw [h.slotWord, hlarge i h0 hs, DirEntry.bits_large_supervisorRw]
    rfl
  · intro p
    exact hadv₁.root ▸ h₁.stepsForward p

theorem lifeCycle_run_small : ∃ root, smallBooted.session.space = some ⟨some ⟨root⟩⟩ ∧
    (∀ i, i ≠ 0 → i ≠ selfMapSlot →
      smallBooted.slotWord root i = some ((SlotIndex.base i).val ||| 0x83)) ∧
    (smallBooted.run [.space (.releaseLarge ⟨0x400000⟩)]).Stage root ∧
    (smallBooted.run [.space (.releaseLarge ⟨0x400000⟩)]).Precedes
      (smallBooted.run ([.space (.releaseLarge ⟨0x400000⟩)] ++
        [.space (.map ⟨0x400000⟩ ⟨0x5000⟩ ⟨3⟩), .pool .take])) root ∧
    ∀ p, (smallBooted.run [.space (.releaseLarge ⟨0x400000⟩)]).StepsForward p root :=
  lifeCycle_run booted_small ⟨trivial, trivial, trivial, trivial⟩

end Holding

end Paging
