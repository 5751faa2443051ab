import Paging.Proofs.Tables
import Paging.Session.Run

/-!
# The operations on the tables alone

Each operation of an address space as a function of its tables, which reads and writes memory where
the operation itself goes through a window. `Performs` in the next module says that the two agree.

`located` lists the ways a lookup can end, and what is said of lookups follows the cases there.

`Advances` says what holds between the tables of two moments; `Grows` adds what an operation keeps while
nobody else has the pool. There are three changes, and each has both: a new table (`link_grows`), a
written entry (`setEntry_grows`) and a released slot (`release_grows`).
-/

namespace Paging

namespace Tables

/-! ## Lookup -/

/-- Gives slot `i` an empty table in the frame `f`, which was taken from the pool. -/
def link (t : Tables) (i : SlotIndex) (f : Frame) (pool : FramePool) : Tables :=
  (((t.took pool).setSlot i (.link .userRw f)).call
    (.invalidate ((tableView i).page .small))).clearTable f

/-- The table of slot `i`, made if `create` says so. `va` is the address to refuse. -/
def ensureTable (t : Tables) (va : VirtualAddress) (create : Bool) :
    Except MapRefusal (Option Frame) × Tables :=
  match (t.slot va.slotIndex).content? with
  | some (.table f _) => (.ok (some f), t)
  | some (.large ..) => (.error (.notMappable va), t)
  | none =>
    if create then
      match t.pool.takeLowest? with
      | none => (.error .noFrame, t)
      | some (f, pool) => (.ok (some f), t.link va.slotIndex f pool)
    else (.ok none, t)

/-- The place of the entry for `va`. -/
def locate (t : Tables) (va : VirtualAddress) (create : Bool) :
    Except MapRefusal (Option EntryPlace) × Tables :=
  if va.slotIndex = selfMapSlot then (.error (.notMappable va), t)
  else
    match t.ensureTable va create with
    | (.error e, t') => (.error e, t')
    | (.ok none, t') => (.ok none, t')
    | (.ok (some f), t') => (.ok (some ⟨f, va.entryIndex⟩), t')

/-! ## Changes -/

/-- Writes an entry for the page of `va` and drops what is cached for the page. -/
def put (t : Tables) (va : VirtualAddress) (p : EntryPlace) (e : EntryBits) : Tables :=
  (t.setEntry p.table p.index e).call (.invalidate (va.page .small))

def map (t : Tables) (va : VirtualAddress) (pa : PhysicalAddress) (flags : EntryBits) :
    Except MapRefusal Unit × Tables :=
  match t.locate va true with
  | (.error e, t') => (.error e, t')
  | (.ok none, t') => (.error (.notMappable va), t')
  | (.ok (some p), t') => (.ok (), t'.put va p (.leaf (pa.page .small) flags))

def unmap (t : Tables) (va : VirtualAddress) : Tables :=
  match t.locate va false with
  | (.ok (some p), t') => if (t'.entry p.table p.index).present then t'.put va p .absent else t'
  | (_, t') => t'

def releaseLarge (t : Tables) (va : VirtualAddress) : Except MapRefusal Unit × Tables :=
  if va.slotIndex = selfMapSlot then (.error (.notMappable va), t)
  else
    match (t.slot va.slotIndex).content? with
    | none => (.ok (), t)
    | some (.table ..) => (.error (.notMappable va), t)
    | some (.large ..) =>
      (.ok (), (t.setSlot va.slotIndex .absent).call
        (.invalidate ((SlotIndex.base va.slotIndex).page .small)))

def mapPages (t : Tables) (va : VirtualAddress) (first : Page .virtual .small) (frame : Frame)
    (flags : EntryBits) : (i n : Nat) → Except MapRefusal Unit × Tables
  | _, 0 => (.ok (), t)
  | i, n + 1 =>
    match first.advance? i, frame.advance? i with
    | some p, some f =>
      match t.map p.base f.base flags with
      | (.ok (), t') => t'.mapPages va first frame flags (i + 1) n
      | (.error e, t') => (.error e, t')
    | _, _ => (.error (.notMappable va), t)

def unmapPages (t : Tables) (first : Page .virtual .small) : (i n : Nat) → Tables
  | _, 0 => t
  | i, n + 1 =>
    match first.advance? i with
    | some p => (t.unmap p.base).unmapPages first (i + 1) n
    | none => t

/-! ## Questions -/

def translate (t : Tables) (va : VirtualAddress) : Option (PhysicalAddress × EntryBits) :=
  match (t.slot va.slotIndex).content? with
  | none => none
  | some (.large page leaf) => some (page.join (va.offset .large), (EntryBits.mk leaf.bits).flags)
  | some (.table f _) =>
    match (t.entry f va.entryIndex).mapping? with
    | none => none
    | some (frame, e) => some (frame.join (va.offset .small), e.flags)

def regionOf (t : Tables) (va : VirtualAddress) : Region := .ofSlot va.slotIndex (t.slot va.slotIndex)

/-- The present entries of the table in frame `f`. -/
def mappings (t : Tables) (f : Frame) : List (EntryIndex × EntryBits) :=
  ((List.finRange 1024).map fun k => (k, t.entry f k)).filter fun p => p.2.present

def entriesOf (t : Tables) (i : SlotIndex) : Option (List (EntryIndex × EntryBits)) :=
  if i = selfMapSlot then none
  else
    match (t.slot i).content? with
    | some (.table f _) => some (t.mappings f)
    | _ => none

def layout (t : Tables) : List SlotRun :=
  SlotRun.ofRegions ((List.finRange 1024).map fun i => (i, t.regionOf (SlotIndex.base i)))

/-! ## Steps -/

/-- Writes through a found entry and reads it back. -/
def useEntry (t : Tables) (p : EntryPlace) : Option EntryWrite → EntryBits × Tables
  | none => (t.entry p.table p.index, t)
  | some .clear => (.absent, t.setEntry p.table p.index .absent)
  | some (.leaf pa flags) =>
    (.leaf (pa.page .small) flags, t.setEntry p.table p.index (.leaf (pa.page .small) flags))

def step (t : Tables) : SpaceStep → Except StepError Answer × Tables
  | .map va pa flags => let (r, t') := t.map va pa flags; (Space.done r, t')
  | .mapSpan va pa len flags =>
    let (r, t') := t.mapPages va (va.page .small) (pa.page .small) flags 0 (Space.pagesInSpan va len)
    (Space.done r, t')
  | .unmap va => (.ok .nothing, t.unmap va)
  | .unmapSpan va len => (.ok .nothing, t.unmapPages (va.page .small) 0 (Space.pagesInSpan va len))
  | .releaseLarge va => let (r, t') := t.releaseLarge va; (Space.done r, t')
  | .locate va create write =>
    match t.locate va create with
    | (.error e, t') => (.error (.map e), t')
    | (.ok none, t') => (.ok .nothing, t')
    | (.ok (some p), t') => let (e, t'') := t'.useEntry p write; (.ok (.entry e), t'')
  | .translate va => (.ok (.ofOption (fun r => .translation r.1 r.2) (t.translate va)), t)
  | .regionOf va => (.ok (.region (t.regionOf va)), t)
  | .slotContent n =>
    match checkIndex n with
    | .ok i => (.ok (.ofOption .content (t.slot i).content?), t)
    | .error f => (.error (.fault f), t)
  | .entriesOf n =>
    match checkIndex n with
    | .ok i => (.ok (.ofOption .entries (t.entriesOf i)), t)
    | .error f => (.error (.fault f), t)
  | .layout => (.ok (.layout t.layout), t)

variable {t t' t'' : Tables} {va : VirtualAddress} {create : Bool} {i : SlotIndex} {f : Frame}
  {pool : FramePool}

/-! ## How a lookup ends -/

/-- The ways a lookup can end, with its answer and the tables after it. -/
inductive Located (t : Tables) (va : VirtualAddress) :
    (create : Bool) → Except MapRefusal (Option EntryPlace) → Tables → Prop where
  | window {create : Bool} (hs : va.slotIndex = selfMapSlot) :
    Located t va create (.error (.notMappable va)) t
  | large {create : Bool} {q : Page .physical .large} {l : LargeLeaf} (hs : va.slotIndex ≠ selfMapSlot)
    (hc : (t.slot va.slotIndex).content? = some (.large q l)) :
    Located t va create (.error (.notMappable va)) t
  | table {create : Bool} {f : Frame} (hs : va.slotIndex ≠ selfMapSlot)
    (hf : t.table? va.slotIndex = some f) :
    Located t va create (.ok (some ⟨f, va.entryIndex⟩)) t
  | absent (hc : (t.slot va.slotIndex).content? = none) : Located t va false (.ok none) t
  | noFrame (hc : (t.slot va.slotIndex).content? = none) (ht : t.pool.takeLowest? = none) :
    Located t va true (.error .noFrame) t
  | created {f : Frame} {pool : FramePool} (hs : va.slotIndex ≠ selfMapSlot)
    (hc : (t.slot va.slotIndex).content? = none) (ht : t.pool.takeLowest? = some (f, pool)) :
    Located t va true (.ok (some ⟨f, va.entryIndex⟩)) (t.link va.slotIndex f pool)

theorem located (t : Tables) (va : VirtualAddress) (create : Bool) :
    Located t va create (t.locate va create).1 (t.locate va create).2 := by
  unfold locate
  by_cases hs : va.slotIndex = selfMapSlot
  · rw [if_pos hs]; exact .window hs
  · rw [if_neg hs, ensureTable]
    cases hc : (t.slot va.slotIndex).content? with
    | none =>
      cases create with
      | false => exact .absent hc
      | true =>
        cases ht : t.pool.takeLowest? with
        | none => exact .noFrame hc ht
        | some fp => exact .created hs hc ht
    | some c =>
      cases c with
      | large q l => exact .large hs hc
      | table f l => exact .table hs (table?_eq_some_iff.2 ⟨l, hc⟩)

theorem locate_of_table (hs : va.slotIndex ≠ selfMapSlot) (hf : t.table? va.slotIndex = some f)
    (create : Bool) : t.locate va create = (.ok (some ⟨f, va.entryIndex⟩), t) := by
  obtain ⟨l, hl⟩ := table?_eq_some_iff.1 hf
  rw [locate, if_neg hs, ensureTable, hl]

/-- A lookup that makes no tables changes nothing. -/
theorem locate_false (t : Tables) (va : VirtualAddress) : (t.locate va false).2 = t := by
  have hl := located t va false
  generalize t.locate va false = r at hl ⊢
  obtain ⟨r, t'⟩ := r
  cases hl <;> rfl

/-- A lookup that is to make tables finds an entry or is refused. -/
theorem Located.ne_none {r : Except MapRefusal (Option EntryPlace)} (hl : Located t va true r t') :
    r ≠ .ok none := by
  cases hl <;> simp

/-- A refused lookup has made no table. -/
theorem Located.eq_of_error {r : Except MapRefusal (Option EntryPlace)} (hl : Located t va create r t')
    {e : MapRefusal} (h : r = .error e) : t' = t := by
  cases hl with
  | window | large | noFrame => rfl
  | table | absent | created => cases h

/-- Nor has one that found none. -/
theorem Located.eq_of_none {r : Except MapRefusal (Option EntryPlace)} (hl : Located t va create r t')
    (hr : r = .ok none) : t' = t := by
  cases hl with
  | window | large | absent | noFrame => rfl
  | table | created => cases hr

/-! ## How tables advance -/

/-- What holds between the tables at two moments, whoever did something in between. Slots only go
forward, each new table has cost one frame of the pool, none was given back, and memory outside of the
directory and the tables is as it was. -/
structure Advances (t t' : Tables) : Prop where
  root : t'.root = t.root
  slot : ∀ i, (t.slot i).Forward (t'.slot i)
  taken : t'.taken + t.backed.card = t.taken + t'.backed.card
  returned : t'.returned = t.returned
  spares : ∀ f, f ∉ t'.owned → t'.ram.frame? f = t.ram.frame? f

theorem backed_congr (h : ∀ i, t'.table? i = t.table? i) : t'.backed = t.backed := by
  simp only [backed, h]

theorem owned_congr (h : ∀ i, t'.table? i = t.table? i) : t'.owned = t.owned := by
  funext f
  simp only [owned, h]

namespace Advances

theorem refl (t : Tables) : t.Advances t := ⟨rfl, fun _ => .same, rfl, rfl, fun _ _ => rfl⟩

theorem owned_subset (h : t.Advances t') : t.owned ⊆ t'.owned := by
  rintro f ⟨i, hf⟩
  exact ⟨i, (h.slot i).table?_eq_some hf⟩

theorem trans (h : t.Advances t') (h' : t'.Advances t'') : t.Advances t'' where
  root := h'.root.trans h.root
  slot i := (h.slot i).trans (h'.slot i)
  taken := by
    have h₁ := h.taken
    have h₂ := h'.taken
    omega
  returned := h'.returned.trans h.returned
  spares f hf := (h'.spares f hf).trans (h.spares f fun hf' => hf (h'.owned_subset hf'))

/-- A change that leaves the slots alone, and memory outside of the tables. -/
theorem of_slot_eq (hroot : t'.root = t.root) (hslot : ∀ i, t'.slot i = t.slot i)
    (htaken : t'.taken = t.taken) (hreturned : t'.returned = t.returned)
    (hspares : ∀ f, f ∉ t.owned → t'.ram.frame? f = t.ram.frame? f) : t.Advances t' := by
  have htable (i : SlotIndex) : t'.table? i = t.table? i := congrArg DirEntry.table? (hslot i)
  refine ⟨hroot, ?_, ?_, hreturned, ?_⟩
  · intro i
    rw [hslot]; exact .same
  · rw [htaken, backed_congr htable]
  · rw [owned_congr htable]; exact hspares

theorem setPool (t : Tables) (p : FramePool) : t.Advances { t with pool := p } :=
  .of_slot_eq rfl (fun _ => rfl) rfl rfl fun _ _ => rfl

end Advances

/-- What an operation adds to this, with the pool in its hands alone: live frames stay live, and a new
table lies in a frame that was not live before. -/
structure Grows (t t' : Tables) : Prop extends t.Advances t' where
  live : ∀ f, t.pool.isLive f → t'.pool.isLive f
  fresh : ∀ i f, t'.table? i = some f → t.table? i = some f ∨ t.pool.isLive f = false

namespace Grows

theorem refl (t : Tables) : t.Grows t := ⟨.refl t, fun _ h => h, fun _ _ h => Or.inl h⟩

theorem trans (h : t.Grows t') (h' : t'.Grows t'') : t.Grows t'' where
  toAdvances := h.toAdvances.trans h'.toAdvances
  live f hf := h'.live f (h.live f hf)
  fresh i f hf := by
    rcases h'.fresh i f hf with hf' | hn
    · exact h.fresh i f hf'
    · right
      by_contra hl
      rw [h.live f (by simpa using hl)] at hn; cases hn

/-- A change that leaves root, pool and slots alone, and memory outside of the tables. -/
theorem of_slot_eq (hroot : t'.root = t.root) (hpool : t'.pool = t.pool)
    (hslot : ∀ i, t'.slot i = t.slot i) (htaken : t'.taken = t.taken) (hreturned : t'.returned = t.returned)
    (hspares : ∀ f, f ∉ t.owned → t'.ram.frame? f = t.ram.frame? f) : t.Grows t' where
  toAdvances := .of_slot_eq hroot hslot htaken hreturned hspares
  live f hf := by rw [hpool]; exact hf
  fresh i f hf := by rw [table?, hslot] at hf; exact Or.inl hf

end Grows

/-! ## A new table -/

theorem table?_setSlot_took (h : t.Sound) (ht : t.pool.takeLowest? = some (f, pool)) (j : SlotIndex) :
    ((t.took pool).setSlot i (.link .userRw f)).table? j = if j = i then some f else t.table? j := by
  rw [table?_setSlot (h.took ht).holds_root, DirEntry.table?_link, table?_took]

theorem table?_setSlot_took_self (h : t.Sound) (ht : t.pool.takeLowest? = some (f, pool)) :
    ((t.took pool).setSlot i (.link .userRw f)).table? i = some f := by
  rw [table?_setSlot_took h ht, if_pos rfl]

section Link

variable (h : t.Sound) (hs : i ≠ selfMapSlot) (hc : (t.slot i).content? = none)
  (ht : t.pool.takeLowest? = some (f, pool))

include h hs hc ht

/-- Linking the new table is sound before the table is emptied. -/
theorem sound_setSlot_took : ((t.took pool).setSlot i (.link .userRw f)).Sound := by
  obtain ⟨hdead, -, hlive, -⟩ := FramePool.take_spec h.pool ht
  obtain ⟨h0, -, -⟩ := (h.shape i).of_content?_eq_none hc
  apply (h.took ht).setSlot (.table h0 hs f)
  intro g hg
  obtain rfl : f = g := by simpa using hg
  constructor
  · show pool.isLive f
    rw [hlive, if_pos rfl]
  · -- a frame from the pool was not live, so no slot can have linked it
    intro j hj
    have hl := h.live j f hj
    rw [hdead] at hl; cases hl

theorem link_sound : (t.link i f pool).Sound := by
  have hset := sound_setSlot_took h hs hc ht
  exact (hset.call _).clearTable (i := i) (table?_setSlot_took_self h ht) hs

theorem slot_link (j : SlotIndex) :
    (t.link i f pool).slot j = if j = i then .link .userRw f else t.slot j := by
  have hset := sound_setSlot_took h hs hc ht
  have hf := table?_setSlot_took_self (i := i) h ht
  rw [link, slot_clearTable ((hset.call _).holds_table (i := i) hf) (hset.table_ne_root hf hs), slot_call,
    slot_setSlot (h.took ht).holds_root, slot_took]

theorem table?_link (j : SlotIndex) :
    (t.link i f pool).table? j = if j = i then some f else t.table? j := by
  rw [table?, slot_link h hs hc ht]
  split
  · rw [DirEntry.table?_link]
  · rfl

theorem table?_link_self : (t.link i f pool).table? i = some f := by
  rw [table?_link h hs hc ht, if_pos rfl]

theorem owned_link_subset : (t.link i f pool).owned ⊆ insert f t.owned := by
  rintro g ⟨j, hj⟩
  rw [table?_link h hs hc ht] at hj
  split at hj
  · exact Or.inl (Option.some.inj hj).symm
  · exact Or.inr ⟨j, hj⟩

theorem entry_link {g : Frame} (hg : g ≠ t.root) (k : EntryIndex) :
    (t.link i f pool).entry g k = if g = f then .absent else t.entry g k := by
  have hset := sound_setSlot_took h hs hc ht
  have hf := table?_setSlot_took_self (i := i) h ht
  rw [link, entry_clearTable ((hset.call _).holds_table (i := i) hf), entry_call,
    entry_setSlot (h.took ht).holds_root hg, entry_took]

/-- The new table is empty. -/
theorem entry_link_self (k : EntryIndex) : (t.link i f pool).entry f k = .absent := by
  have hne := (link_sound h hs hc ht).table_ne_root (table?_link_self h hs hc ht) hs
  rw [entry_link h hs hc ht hne, if_pos rfl]

/-- No other table notices: its frame was live, and the new one was not. -/
theorem entry_link_table {g : Frame} {j : SlotIndex} (hj : j ≠ selfMapSlot) (hg : t.table? j = some g)
    (k : EntryIndex) : (t.link i f pool).entry g k = t.entry g k := by
  rw [entry_link h hs hc ht (h.table_ne_root hg hj), if_neg]
  rintro rfl
  have hlive := h.live _ _ hg
  rw [(FramePool.take_spec h.pool ht).1] at hlive; cases hlive

theorem backed_link : (t.link i f pool).backed = insert i t.backed := by
  ext j
  simp only [backed, table?_link h hs hc ht, Finset.mem_filter, Finset.mem_univ, true_and, Finset.mem_insert]
  by_cases hj : j = i <;> simp [hj]

theorem frame?_link {g : Frame} (hr : g ≠ t.root) (hg : g ≠ f) :
    (t.link i f pool).ram.frame? g = t.ram.frame? g := by
  have hset := sound_setSlot_took h hs hc ht
  have hf := table?_setSlot_took_self (i := i) h ht
  show (((t.took pool).setSlot i (.link .userRw f)).ram.putFrame f _).frame? g = _
  rw [Ram.frame?_putFrame (hset.holds_table hf), if_neg hg]
  exact (Ram.frame?_putWord (h.took ht).holds_root i _ g).trans (if_neg hr)

theorem link_advances : t.Advances (t.link i f pool) := by
  have hnone : t.table? i = none := by rw [table?, DirEntry.table?, hc]
  refine ⟨rfl, ?_, ?_, rfl, ?_⟩
  · intro j
    rw [slot_link h hs hc ht]
    split
    · rename_i hj
      rw [hj]; exact .linked hnone f
    · exact .same
  · have hi : i ∉ t.backed := by simp [backed, hnone]
    rw [backed_link h hs hc ht, Finset.card_insert_of_notMem hi]
    show t.taken + 1 + _ = _
    omega
  · intro g hg
    refine frame?_link h hs hc ht ?_ ?_
    · rintro rfl
      exact hg (link_sound h hs hc ht).root_mem_owned
    · rintro rfl
      exact hg (mem_owned (table?_link_self h hs hc ht))

theorem link_grows : t.Grows (t.link i f pool) where
  toAdvances := link_advances h hs hc ht
  live g hg := by
    show pool.isLive g
    rw [(FramePool.take_spec h.pool ht).2.2.1, hg, ite_self]
  fresh j g hg := by
    rw [table?_link h hs hc ht] at hg
    split at hg
    · cases hg; exact Or.inr (FramePool.take_spec h.pool ht).1
    · exact Or.inl hg

end Link

theorem Located.sound {r : Except MapRefusal (Option EntryPlace)} (hl : Located t va create r t')
    (h : t.Sound) : t'.Sound := by
  cases hl with
  | created hs hc ht => exact link_sound h hs hc ht
  | window | large | table | absent | noFrame => exact h

/-- A place that was found is the entry of the address, in the table of its slot. -/
theorem Located.place {p : EntryPlace} (hl : Located t va create (.ok (some p)) t') (h : t.Sound) :
    va.slotIndex ≠ selfMapSlot ∧ t'.table? va.slotIndex = some p.table ∧ p.index = va.entryIndex := by
  cases hl with
  | table hs hf => exact ⟨hs, hf, rfl⟩
  | created hs hc ht => exact ⟨hs, table?_link_self h hs hc ht, rfl⟩

/-! ## Writing to a table -/

section SetEntry

variable (h : t.Sound) (hs : i ≠ selfMapSlot) (hf : t.table? i = some f) (k : EntryIndex) (e : EntryBits)

include h hs hf

theorem slot_setEntry_table (j : SlotIndex) : (t.setEntry f k e).slot j = t.slot j :=
  slot_setEntry (h.holds_table hf) (h.table_ne_root hf hs) k e j

theorem table?_setEntry (j : SlotIndex) : (t.setEntry f k e).table? j = t.table? j := by
  rw [table?, slot_setEntry_table h hs hf]; rfl

theorem owned_setEntry : (t.setEntry f k e).owned = t.owned := owned_congr (table?_setEntry h hs hf k e)

theorem setEntry_grows : t.Grows (t.setEntry f k e) := by
  refine .of_slot_eq rfl rfl (slot_setEntry_table h hs hf k e) rfl rfl ?_
  intro g hg
  refine (Ram.frame?_putWord (h.holds_table hf) k _ g).trans (if_neg ?_)
  rintro rfl
  exact hg (mem_owned hf)

end SetEntry

theorem call_grows (t : Tables) (c : HardwareCall) : t.Grows (t.call c) :=
  .of_slot_eq rfl rfl (fun _ => rfl) rfl rfl fun _ _ => rfl

/-! ## Releasing 4 MiB -/

section Release

variable (h : t.Sound) {q : Page .physical .large} {l : LargeLeaf}
  (hc : (t.slot i).content? = some (.large q l))

include h hc

theorem release_sound : (t.setSlot i .absent).Sound := by
  obtain ⟨h0, hs, -⟩ := (h.shape i).of_content?_eq_large hc
  apply h.setSlot (.absent h0 hs)
  intro g hg
  simp at hg

/-- A slot that maps 4 MiB links no table, so no table is lost. -/
theorem table?_release (j : SlotIndex) : (t.setSlot i .absent).table? j = t.table? j := by
  rw [table?_setSlot h.holds_root, DirEntry.table?_absent]
  split
  · rename_i hj
    rw [hj, table?, DirEntry.table?, hc]
  · rfl

theorem owned_release : (t.setSlot i .absent).owned = t.owned := owned_congr (table?_release h hc)

theorem release_grows : t.Grows (t.setSlot i .absent) := by
  have htable := table?_release h hc
  refine ⟨⟨rfl, ?_, ?_, rfl, ?_⟩, fun _ hf => hf, ?_⟩
  · intro j
    rw [slot_setSlot h.holds_root]
    split
    · rename_i hj
      rw [hj]
      exact .cleared (by rw [DirEntry.table?, hc])
    · exact .same
  · rw [backed_congr htable]; rfl
  · intro g hg
    rw [owned_congr htable] at hg
    refine (Ram.frame?_putWord h.holds_root i _ g).trans (if_neg ?_)
    rintro rfl
    exact hg h.root_mem_owned
  · intro j g hg
    rw [htable] at hg
    exact Or.inl hg

end Release

end Tables

end Paging
