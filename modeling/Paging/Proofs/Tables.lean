import Mathlib.Data.Fintype.Basic
import Paging.Machine.Cpu
import Paging.Proofs.Geometry
import Paging.Proofs.Pool

/-!
# The tables behind a machine

`Tables` is what the paging operations work on, without anything that a processor remembers: memory
with the frame of the directory, the pool the tables come from, and the hardware calls. Slots and
entries are read straight from memory.

`Tables.Sound` is the structure that every operation keeps. The self-map slot names the directory
itself, every other slot is absent, the 4 MiB page of boot or the link of a table (`Shape`), and the
directory and all tables are different live frames of the pool. A slot may change only to another
shape, and only to a table that no other slot links (`Sound.setSlot`); what is written into a table
does not matter (`Sound.setEntry`).
-/

namespace Paging

structure Tables where
  ram : Ram
  /-- The frame of the directory. -/
  root : Frame
  pool : FramePool
  taken : Nat
  returned : Nat
  calls : Array HardwareCall

/-- The 4 MiB of physical memory with the addresses of slot `i`. -/
def SlotIndex.identity (i : SlotIndex) : Page .physical .large := ⟨i.val, i.lt_pageCount⟩

/-- An address at its offset in the 4 MiB of its slot. -/
theorem Address.identity_join (va : VirtualAddress) :
    va.slotIndex.identity.join (va.offset .large) = ⟨va.val⟩ :=
  Page.join_page_offset (s := .large) (⟨va.val⟩ : PhysicalAddress)

/-- The table that a slot links, if it links one. -/
def DirEntry.table? (e : DirEntry) : Option Frame :=
  match e.content? with
  | some (.table f _) => some f
  | _ => none

/-- What slot `i` of a directory in `root` may hold. -/
inductive Shape (root : Frame) : SlotIndex → DirEntry → Prop where
  | selfMap : Shape root selfMapSlot (.link .supervisorRw root)
  | bootTable (f : Frame) : Shape root 0 (.link .supervisorRw f)
  | absent {i : SlotIndex} (h0 : i ≠ 0) (hs : i ≠ selfMapSlot) : Shape root i .absent
  | large {i : SlotIndex} (h0 : i ≠ 0) (hs : i ≠ selfMapSlot) :
    Shape root i (.large .supervisorRw i.identity)
  | table {i : SlotIndex} (h0 : i ≠ 0) (hs : i ≠ selfMapSlot) (f : Frame) :
    Shape root i (.link .userRw f)

namespace Tables

/-! ## Reading -/

def slot (t : Tables) (i : SlotIndex) : DirEntry := ⟨(t.ram.word? t.root i).getD 0⟩

def entry (t : Tables) (f : Frame) (j : EntryIndex) : EntryBits := ⟨(t.ram.word? f j).getD 0⟩

/-- The frame of the table of slot `i`. -/
def table? (t : Tables) (i : SlotIndex) : Option Frame := (t.slot i).table?

def walk (t : Tables) (va : VirtualAddress) : Walk := t.ram.walk t.root va

/-- The frames of the directory and of all tables. -/
def owned (t : Tables) : Set Frame := fun f => ∃ i, t.table? i = some f

/-- The slots that link a table. -/
def backed (t : Tables) : Finset SlotIndex := Finset.univ.filter fun i => (t.table? i).isSome

structure Sound (t : Tables) : Prop where
  pool : t.pool.Sound
  inRam : ∀ f, (t.pool.place? f).isSome → t.ram.Holds f
  shape : ∀ i, Shape t.root i (t.slot i)
  live : ∀ i f, t.table? i = some f → t.pool.isLive f
  distinct : ∀ i j f, t.table? i = some f → t.table? j = some f → i = j

/-! ## Writing -/

def setSlot (t : Tables) (i : SlotIndex) (e : DirEntry) : Tables :=
  { t with ram := t.ram.putWord t.root i e.bits }

def setEntry (t : Tables) (f : Frame) (j : EntryIndex) (e : EntryBits) : Tables :=
  { t with ram := t.ram.putWord f j e.bits }

/-- Empties the table in frame `f`. -/
def clearTable (t : Tables) (f : Frame) : Tables :=
  { t with ram := t.ram.putFrame f PageTable.empty.words }

def call (t : Tables) (c : HardwareCall) : Tables := { t with calls := t.calls.push c }

/-- One more frame was taken, which leaves `pool`. -/
def took (t : Tables) (pool : FramePool) : Tables := { t with pool, taken := t.taken + 1 }

end Tables

/-! ## The shapes of a slot -/

@[simp] theorem DirEntry.table?_link (flags : TableLink) (f : Frame) :
    (DirEntry.link flags f).table? = some f := by
  simp [table?]

@[simp] theorem DirEntry.table?_large (flags : LargeLeaf) (p : Page .physical .large) :
    (DirEntry.large flags p).table? = none := by
  simp [table?]

@[simp] theorem DirEntry.table?_absent : DirEntry.absent.table? = none := by
  simp [table?]

theorem DirEntry.table?_eq_some_iff {e : DirEntry} {f : Frame} :
    e.table? = some f ↔ ∃ l, e.content? = some (.table f l) := by
  unfold table?
  split
  · rename_i g l h; simp [h]
  · rename_i h
    simp only [reduceCtorEq, false_iff, not_exists]
    intro l hl
    exact h f l hl

/-- The processor sees the same table in the bits of a link. -/
theorem DirEntry.of_table?_eq_some {e : DirEntry} {f : Frame} (h : e.table? = some f) :
    e.bits &&& 0x01 ≠ 0 ∧ e.bits &&& 0x80 = 0 ∧ Walk.frameOf e.bits = f := by
  obtain ⟨l, hl⟩ := table?_eq_some_iff.1 h
  rw [content?_eq] at hl
  split at hl
  · cases hl
  · rename_i hp
    split at hl
    · cases hl
    · rename_i hs
      cases hl
      exact ⟨hp, by simpa using hs, rfl⟩

theorem DirEntry.table?_eq_some_of_bits {e : DirEntry} (hp : e.bits &&& 0x01 ≠ 0)
    (hs : e.bits &&& 0x80 = 0) : e.table? = some (Walk.frameOf e.bits) := by
  rw [table?_eq_some_iff]
  exact ⟨⟨e.bits⟩, by rw [content?_eq, if_neg hp, if_neg (by simpa using hs)]⟩

namespace Shape

variable {root : Frame} {i : SlotIndex} {e : DirEntry}

theorem of_selfMapSlot (h : Shape root selfMapSlot e) : e = .link .supervisorRw root := by
  generalize hi : selfMapSlot = i at h
  cases h with
  | selfMap => rfl
  | bootTable f => exact absurd hi (by decide)
  | absent h0 hs => exact absurd hi.symm hs
  | large h0 hs => exact absurd hi.symm hs
  | table h0 hs f => exact absurd hi.symm hs

/-- The first slot always links a table. -/
theorem table?_first (h : Shape root 0 e) : ∃ f, e.table? = some f := by
  generalize hi : (0 : SlotIndex) = i at h
  cases h with
  | selfMap => exact absurd hi (by decide)
  | bootTable f => exact ⟨f, DirEntry.table?_link _ f⟩
  | absent h0 hs => exact absurd hi.symm h0
  | large h0 hs => exact absurd hi.symm h0
  | table h0 hs f => exact absurd hi.symm h0

/-- An absent slot is neither the first nor the self-map. -/
theorem of_content?_eq_none (h : Shape root i e) (hc : e.content? = none) :
    i ≠ 0 ∧ i ≠ selfMapSlot ∧ e = .absent := by
  cases h with
  | absent h0 hs => exact ⟨h0, hs, rfl⟩
  | selfMap | bootTable | large | table => simp at hc

/-- A slot that maps 4 MiB maps the 4 MiB of boot. -/
theorem of_content?_eq_large (h : Shape root i e) {p : Page .physical .large} {l : LargeLeaf}
    (hc : e.content? = some (.large p l)) :
    i ≠ 0 ∧ i ≠ selfMapSlot ∧ e = .large .supervisorRw i.identity ∧ p = i.identity ∧ l = ⟨e.bits⟩ := by
  cases h with
  | large h0 hs =>
    rw [DirEntry.content?_large] at hc
    cases hc; exact ⟨h0, hs, rfl, rfl, rfl⟩
  | selfMap | bootTable | absent | table => simp at hc

end Shape

/-! ## How a slot may change -/

/-- What may become of a slot: a slot that links a table stays as it is, and none comes to map 4 MiB. -/
inductive DirEntry.Forward (e : DirEntry) : DirEntry → Prop where
  | same : Forward e e
  | cleared (hn : e.table? = none) : Forward e .absent
  | linked (hn : e.table? = none) (f : Frame) : Forward e (.link .userRw f)

namespace DirEntry.Forward

variable {e e' e'' : DirEntry} {f : Frame}

theorem eq_of_table? (h : e.Forward e') (hf : e.table? = some f) : e' = e := by
  cases h with
  | same => rfl
  | cleared hn => rw [hf] at hn; cases hn
  | linked hn g => rw [hf] at hn; cases hn

theorem table?_eq_some (h : e.Forward e') (hf : e.table? = some f) : e'.table? = some f := by
  rw [h.eq_of_table? hf, hf]

theorem table?_eq_none (h : e.Forward e') (hn : e'.table? = none) : e.table? = none := by
  cases hf : e.table? with
  | none => rfl
  | some f => rw [h.table?_eq_some hf] at hn; cases hn

theorem trans (h : e.Forward e') (h' : e'.Forward e'') : e.Forward e'' := by
  cases h' with
  | same => exact h
  | cleared hn => exact .cleared (h.table?_eq_none hn)
  | linked hn f => exact .linked (h.table?_eq_none hn) f

end DirEntry.Forward

namespace Ram

variable {r : Ram} {f g : Frame}

@[simp] theorem holds_putWord (i : Fin 1024) (w : UInt32) : (r.putWord f i w).Holds g ↔ r.Holds g := by
  unfold putWord Holds
  split <;> simp

@[simp] theorem holds_putFrame (ws : FrameWords) : (r.putFrame f ws).Holds g ↔ r.Holds g := by
  unfold putFrame Holds
  split <;> simp

theorem word?_isSome (h : r.Holds f) (i : Fin 1024) : (r.word? f i).isSome := by
  rw [word?, Option.isSome_map]
  exact frame?_isSome_iff.2 h

theorem word?_putFrame (h : r.Holds f) (ws : FrameWords) (g : Frame) (j : Fin 1024) :
    (r.putFrame f ws).word? g j = if g = f then some (ws.get j) else r.word? g j := by
  unfold word?
  rw [frame?_putFrame h]
  split <;> rfl

end Ram

namespace Tables

variable {t : Tables} {i j : SlotIndex} {f g : Frame} {e : DirEntry}

/-! ## What is read after a write -/

@[simp] theorem slot_call (c : HardwareCall) (i : SlotIndex) : (t.call c).slot i = t.slot i := rfl
@[simp] theorem slot_took (p : FramePool) (i : SlotIndex) : (t.took p).slot i = t.slot i := rfl
@[simp] theorem table?_took (p : FramePool) (i : SlotIndex) : (t.took p).table? i = t.table? i := rfl
@[simp] theorem entry_call (c : HardwareCall) (f : Frame) (k : EntryIndex) :
    (t.call c).entry f k = t.entry f k := rfl
@[simp] theorem entry_took (p : FramePool) (f : Frame) (k : EntryIndex) :
    (t.took p).entry f k = t.entry f k := rfl

theorem slot_setSlot (h : t.ram.Holds t.root) (i j : SlotIndex) (e : DirEntry) :
    (t.setSlot i e).slot j = if j = i then e else t.slot j := by
  simp only [slot, setSlot, Ram.word?_putWord h, true_and]
  split <;> rfl

theorem table?_setSlot (h : t.ram.Holds t.root) (i j : SlotIndex) (e : DirEntry) :
    (t.setSlot i e).table? j = if j = i then e.table? else t.table? j := by
  rw [table?, slot_setSlot h]
  split <;> rfl

theorem entry_setSlot (h : t.ram.Holds t.root) (hg : g ≠ t.root) (i : SlotIndex) (e : DirEntry)
    (k : EntryIndex) : (t.setSlot i e).entry g k = t.entry g k := by
  simp only [entry, setSlot, Ram.word?_putWord h, hg, false_and, if_false]

theorem entry_setEntry (h : t.ram.Holds f) (g : Frame) (j k : EntryIndex) (e : EntryBits) :
    (t.setEntry f j e).entry g k = if g = f ∧ k = j then e else t.entry g k := by
  simp only [entry, setEntry, Ram.word?_putWord h]
  split <;> rfl

theorem slot_setEntry (h : t.ram.Holds f) (hf : f ≠ t.root) (j : EntryIndex) (e : EntryBits)
    (i : SlotIndex) : (t.setEntry f j e).slot i = t.slot i := by
  simp only [slot, setEntry, Ram.word?_putWord h, hf.symm, false_and, if_false]

theorem entry_clearTable (h : t.ram.Holds f) (g : Frame) (k : EntryIndex) :
    (t.clearTable f).entry g k = if g = f then .absent else t.entry g k := by
  simp only [entry, clearTable, Ram.word?_putFrame h]
  split
  · exact congrArg EntryBits.mk (Vector.getElem_replicate k.isLt)
  · rfl

theorem slot_clearTable (h : t.ram.Holds f) (hf : f ≠ t.root) (i : SlotIndex) :
    (t.clearTable f).slot i = t.slot i := by
  simp only [slot, clearTable, Ram.word?_putFrame h, hf.symm, if_false]

/-- The directory read as a table. -/
theorem entry_root (i : SlotIndex) : t.entry t.root i = ⟨(t.slot i).bits⟩ := rfl

theorem table?_eq_some_iff : t.table? i = some f ↔ ∃ l, (t.slot i).content? = some (.table f l) :=
  DirEntry.table?_eq_some_iff

theorem mem_owned (hf : t.table? i = some f) : f ∈ t.owned := ⟨i, hf⟩

/-! ## Sound tables -/

namespace Sound

theorem slot_selfMap (h : t.Sound) : t.slot selfMapSlot = .link .supervisorRw t.root :=
  (h.shape selfMapSlot).of_selfMapSlot

theorem table?_selfMap (h : t.Sound) : t.table? selfMapSlot = some t.root := by
  rw [table?, h.slot_selfMap, DirEntry.table?_link]

theorem root_mem_owned (h : t.Sound) : t.root ∈ t.owned := mem_owned h.table?_selfMap

theorem root_live (h : t.Sound) : t.pool.isLive t.root := h.live _ _ h.table?_selfMap

theorem holds_of_isLive (h : t.Sound) (hf : t.pool.isLive f) : t.ram.Holds f :=
  h.inRam f (FramePool.place?_of_isLive hf)

theorem holds_root (h : t.Sound) : t.ram.Holds t.root := h.holds_of_isLive h.root_live

theorem holds_table (h : t.Sound) (hf : t.table? i = some f) : t.ram.Holds f :=
  h.holds_of_isLive (h.live i f hf)

/-- No table lies in the directory. -/
theorem table_ne_root (h : t.Sound) (hf : t.table? i = some f) (hi : i ≠ selfMapSlot) : f ≠ t.root := by
  rintro rfl
  exact hi (h.distinct _ _ _ hf h.table?_selfMap)

theorem word?_slot (h : t.Sound) (i : SlotIndex) : t.ram.word? t.root i = some (t.slot i).bits := by
  obtain ⟨w, hw⟩ := Option.isSome_iff_exists.1 (Ram.word?_isSome h.holds_root i)
  simp only [slot, hw, Option.getD_some]

theorem word?_entry (h : t.ram.Holds f) (k : EntryIndex) : t.ram.word? f k = some (t.entry f k).bits := by
  obtain ⟨w, hw⟩ := Option.isSome_iff_exists.1 (Ram.word?_isSome h k)
  simp only [entry, hw, Option.getD_some]

/-- A walk reads the slot and, if that links a table, the entry; it never leaves memory. -/
theorem walk_eq (h : t.Sound) (va : VirtualAddress) : t.walk va =
    match (t.slot va.slotIndex).content? with
    | none => .slotAbsent
    | some (.large _ l) => .large l.bits
    | some (.table f l) =>
      if (t.entry f va.entryIndex).present then .small l.bits (t.entry f va.entryIndex).bits
      else .entryAbsent l.bits := by
  unfold walk Ram.walk
  rw [h.word?_slot]
  cases hc : (t.slot va.slotIndex).content? with
  | none =>
    rw [DirEntry.content?_eq] at hc
    by_cases h1 : (t.slot va.slotIndex).bits &&& 0x01 = 0
    · simp only [h1, if_true]
    · rw [if_neg h1] at hc
      split at hc <;> cases hc
  | some c =>
    have hc' := hc
    rw [DirEntry.content?_eq] at hc
    by_cases h1 : (t.slot va.slotIndex).bits &&& 0x01 = 0
    · rw [if_pos h1] at hc; cases hc
    · rw [if_neg h1] at hc
      simp only [h1, if_false]
      by_cases h2 : (t.slot va.slotIndex).bits &&& 0x80 = 0
      · rw [if_neg (by simpa using h2)] at hc
        cases hc
        have hf := h.holds_table (table?_eq_some_iff.2 ⟨_, hc'⟩)
        rw [if_neg (by simpa using h2), word?_entry hf]
        simp only [EntryBits.present_iff, ne_eq, ite_not]
      · rw [if_pos h2] at hc
        cases hc
        rw [if_pos h2]

/-- A walk through a table ends in the entry. -/
theorem walk_of_table (h : t.Sound) {va : VirtualAddress} (hf : t.table? va.slotIndex = some f) :
    t.walk va = if (t.entry f va.entryIndex).present then
      .small (t.slot va.slotIndex).bits (t.entry f va.entryIndex).bits
    else .entryAbsent (t.slot va.slotIndex).bits := by
  obtain ⟨l, hl⟩ := table?_eq_some_iff.1 hf
  rw [h.walk_eq, hl, ← DirEntry.bits_of_content?_eq_table hl]

/-! ### What keeps them sound -/

/-- Writes that spare the directory, and calls, keep tables sound. -/
theorem of_slot_eq (h : t.Sound) {t' : Tables} (hroot : t'.root = t.root) (hpool : t'.pool = t.pool)
    (hram : ∀ g, t.ram.Holds g → t'.ram.Holds g) (hslot : ∀ i, t'.slot i = t.slot i) : t'.Sound where
  pool := hpool ▸ h.pool
  inRam f hf := hram f (h.inRam f (hpool ▸ hf))
  shape i := by rw [hslot, hroot]; exact h.shape i
  live i f hf := by rw [hpool]; rw [table?, hslot] at hf; exact h.live i f hf
  distinct i j f hi hj := by
    rw [table?, hslot] at hi hj; exact h.distinct i j f hi hj

theorem call (h : t.Sound) (c : HardwareCall) : (t.call c).Sound :=
  h.of_slot_eq rfl rfl (fun _ hg => hg) fun _ => rfl

theorem setEntry (h : t.Sound) (hf : t.table? i = some f) (hi : i ≠ selfMapSlot) (k : EntryIndex)
    (e : EntryBits) : (t.setEntry f k e).Sound :=
  h.of_slot_eq rfl rfl (fun _ hg => (Ram.holds_putWord ..).2 hg)
    (slot_setEntry (h.holds_table hf) (h.table_ne_root hf hi) k e)

theorem clearTable (h : t.Sound) (hf : t.table? i = some f) (hi : i ≠ selfMapSlot) :
    (t.clearTable f).Sound :=
  h.of_slot_eq rfl rfl (fun _ hg => (Ram.holds_putFrame ..).2 hg)
    (slot_clearTable (h.holds_table hf) (h.table_ne_root hf hi))

/-- The pool may change in any way that keeps its own soundness, its window and the live tables. -/
theorem setPool (h : t.Sound) {p : FramePool} (hp : p.Sound) (hplace : ∀ g, p.place? g = t.pool.place? g)
    (hlive : ∀ i f, t.table? i = some f → p.isLive f) (n : Nat) :
    ({ t with pool := p, taken := n } : Tables).Sound where
  pool := hp
  inRam f hf := h.inRam f (by rw [← hplace]; exact hf)
  shape := h.shape
  live := hlive
  distinct := h.distinct

theorem took (h : t.Sound) {p : FramePool} (ht : t.pool.takeLowest? = some (f, p)) : (t.took p).Sound := by
  obtain ⟨-, hp, hlive, hplace, -⟩ := FramePool.take_spec h.pool ht
  apply h.setPool hp hplace
  intro i g hg
  rw [hlive]; split
  · rfl
  · exact h.live i g hg

/-- A slot may take another shape, as long as it does not link a table that another slot links. -/
theorem setSlot (h : t.Sound) (he : Shape t.root i e)
    (hl : ∀ f, e.table? = some f → t.pool.isLive f ∧ ∀ j, t.table? j = some f → j = i) :
    (t.setSlot i e).Sound := by
  have hslot := slot_setSlot h.holds_root i (e := e)
  have htable := table?_setSlot h.holds_root i (e := e)
  refine ⟨h.pool, ?_, ?_, ?_, ?_⟩
  · intro f hf
    exact (Ram.holds_putWord ..).2 (h.inRam f hf)
  · intro j
    rw [hslot]; split
    · rename_i hji; subst hji; exact he
    · exact h.shape j
  · intro j f hj
    rw [htable] at hj; split at hj
    · exact (hl f hj).1
    · exact h.live j f hj
  · intro j k f hj hk
    rw [htable] at hj hk
    split at hj <;> split at hk
    · rename_i h1 h2; rw [h1, h2]
    · rename_i h1 h2; exact absurd ((hl f hj).2 k hk) h2
    · rename_i h1 h2; exact absurd ((hl f hk).2 j hj) h1
    · exact h.distinct j k f hj hk

end Sound

end Tables

end Paging
