import Paging.Proofs.Spans

/-!
# The entry that a lookup hands out

A lookup finds the place of an entry through the windows, perhaps in a table that it has just made. That
place is the word which the processor reads last when it walks the address in bare memory, one for each
page below the window and the same at all later times. Whatever is stored there decides the walks of that
page and of no other, and nothing besides that word changes.

`Holding.Leads` adds such stores, of any word, to the events: `Holding.HandsOut` holds at every moment
after boot that events and stores lead to (`handsOut_after`).
-/

namespace Paging

namespace Space

/-- Stores `e` in the entry of `va`, if a lookup finds one. -/
def store (va : VirtualAddress) (create : Bool) (e : EntryBits) : MachineM Unit := do
  match ← locate va create with
  | .ok (some place) => place.write e
  | .ok none | .error _ => pure ()

end Space

/-- What was found at `p` for `va`, in the memory `r` after the lookup. `root` is the frame of the
directory. -/
structure EntryPlace.Serves (p : EntryPlace) (r : Ram) (root : Frame) (va : VirtualAddress) : Prop where
  below : va.val.toNat < 0xFFC00000
  /-- The slot of the address links the table in which the place lies. -/
  links : r.Links root va.slotIndex p.table
  address : ∃ w, r.word? root va.slotIndex = some w ∧ (p.table.wordAddress p.index).val.toNat =
    w.toNat / 4096 * 4096 + 4 * (va.val.toNat / 4096 % 1024)
  /-- The walk ends with the word at the place. -/
  walk : ∃ w e, r.word? root va.slotIndex = some w ∧ r.word? p.table p.index = some e ∧
    r.walk root va = if e &&& 0x01 = 0 then .entryAbsent w else .small w e

/-- From the memory `r` to the memory `r'`, the word at `p` became `e`, which is the entry of `va`. -/
structure EntryPlace.Stored (p : EntryPlace) (e : EntryBits) (r r' : Ram) (root : Frame)
    (va : VirtualAddress) : Prop where
  /-- Every address of the page has the walk that `e` says. -/
  page : ∀ vb, vb.page .small = va.page .small → (r'.walk root vb).target? vb =
    if e.bits &&& 0x01 = 0 then none
    else some ((Walk.frameOf e.bits).join (vb.offset .small), e.bits &&& 0xFFF)
  /-- This includes all addresses of the window. -/
  others : ∀ vb, vb.page .small ≠ va.page .small → r'.walk root vb = r.walk root vb
  directory : ∀ i, r'.word? root i = r.word? root i
  word : r'.word? p.table p.index = some e.bits
  words : ∀ f i, ¬(f = p.table ∧ i = p.index) → r'.word? f i = r.word? f i

namespace Holding

/-- A lookup of `va` finds the entry at `p` and leaves the machine `m`. -/
def Finds (u : Holding) (va : VirtualAddress) (create : Bool) (p : EntryPlace) (m : Machine) : Prop :=
  Space.locate va create u.session.machine = .ok (.ok (some p)) m

/-- The holding after `e` was stored in the entry of `va`. -/
def store (u : Holding) (va : VirtualAddress) (create : Bool) (e : EntryBits) : Holding :=
  match Space.store va create e u.session.machine with
  | .ok _ m | .error _ m => u.onto m

/-- Harmless events, and stores in entries that were found, lead from `u` to later holdings. -/
inductive Leads (u : Holding) : Holding → Prop where
  | refl : Leads u u
  | next {v : Holding} (h : Leads u v) {e : Event} (hf : v.Harmless e) : Leads u (v.next e)
  | store {v : Holding} (h : Leads u v) (va : VirtualAddress) (create : Bool) (e : EntryBits) :
    Leads u (v.store va create e)

/-- What every lookup that finds an entry hands out. -/
structure HandsOut (u : Holding) (root : Frame) : Prop where
  /-- A lookup finds a place whenever its step answers with an entry. -/
  found : ∀ va create w e, u.answer (.space (.locate va create w)) = .ok (.entry e) →
    ∃ p m, u.Finds va create p m
  place : ∀ va create p m, u.Finds va create p m → p.Serves m.ram root va
  /-- As a step, the lookup answers with the entry and leaves the same machine. -/
  answer : ∀ va create p m, u.Finds va create p m → ∃ w, m.ram.word? p.table p.index = some w ∧
    u.session.step (.space (.locate va create none)) = (.ok (.entry ⟨w⟩), (u.onto m).session)
  /-- Of two lookups, one now and one at any later time, both find the same place exactly if both are of
  the same page. -/
  apart : ∀ va create p m, u.Finds va create p m → ∀ v, (u.onto m).Leads v →
    ∀ vb create' q m', v.Finds vb create' q m' → (q = p ↔ vb.page .small = va.page .small)
  /-- Any word can be stored, and nothing but memory changes. -/
  store : ∀ va create p m, u.Finds va create p m → ∀ e, ∃ r,
    p.write e m = .ok () { m with ram := r } ∧ p.Stored e m.ram r root va

end Holding

/-! ## Storing in a table -/

namespace Tables

variable {t : Tables} {va vb : VirtualAddress} {f : Frame}

/-- The walk of a page whose entry was stored. -/
theorem Sound.target?_setEntry (h : t.Sound) (hs : va.slotIndex ≠ selfMapSlot)
    (hf : t.table? va.slotIndex = some f) (e : EntryBits) (hpage : vb.page .small = va.page .small) :
    ((t.setEntry f va.entryIndex e).walk vb).target? vb = if e.bits &&& 0x01 = 0 then none
      else some ((Walk.frameOf e.bits).join (vb.offset .small), e.bits &&& 0xFFF) := by
  obtain ⟨hi, hk⟩ := (Address.page_eq_iff vb va).1 hpage
  have hf' : (t.setEntry f va.entryIndex e).table? vb.slotIndex = some f := by
    rw [table?_setEntry h hs hf, hi, hf]
  have hentry : (t.setEntry f va.entryIndex e).entry f vb.entryIndex = e := by
    rw [entry_setEntry (h.holds_table hf), if_pos ⟨rfl, hk⟩]
  rw [(h.setEntry hf hs _ e).walk_of_table hf', hentry]
  by_cases hp : e.bits &&& 0x01 = 0
  · rw [if_pos hp, if_neg (by rw [EntryBits.present_iff]; simpa using hp)]
    rfl
  · rw [if_neg hp, if_pos ((EntryBits.present_iff e).2 hp)]
    rfl

/-- The direct form of storing `e` in the entry of `va`. -/
def store (t : Tables) (va : VirtualAddress) (create : Bool) (e : EntryBits) : Tables :=
  match t.locate va create with
  | (.ok (some p), t') => t'.setEntry p.table p.index e
  | (.ok none, t') | (.error _, t') => t'

end Tables

theorem Performs.store {t : Tables} (h : t.Sound) (va : VirtualAddress) (create : Bool) (e : EntryBits) :
    Performs .windows (Space.store va create e) t ((), t.store va create e) := by
  have hl := Tables.located t va create
  have hx := locate (s := .windows) h va create
  unfold Space.store Tables.store
  generalize t.locate va create = r at hl hx ⊢
  obtain ⟨r, t'⟩ := r
  refine hx.bind ?_
  rcases r with e' | (_ | p)
  · exact pure hx.sound _
  · exact pure hx.sound _
  · obtain ⟨hs, hf, -⟩ := hl.place h
    exact writeEntry hx.sound hs hf e

/-! ## At every moment -/

namespace Holding

variable {u v : Holding} {t t' : Tables} {s : Scope} {va vb : VirtualAddress} {create create' : Bool}
  {p q : EntryPlace} {m m' : Machine} {es : List Event}

namespace Backed

/-- The tables after a lookup that found an entry. -/
theorem onto_found (h : Backed .windows u t) (hf : u.Finds va create p m) :
    ∃ t', t.Advances t' ∧ Backed .windows (u.onto m) t' ∧ va.slotIndex ≠ selfMapSlot ∧
      t'.table? va.slotIndex = some p.table ∧ p.index = va.entryIndex := by
  have hl := Tables.located t va create
  have hx := Performs.locate (s := .windows) h.sound va create
  obtain ⟨m', hm', h'⟩ := h.onto hx
  rw [Finds, hm'] at hf
  obtain ⟨hr, rfl⟩ := EStateM.Result.ok.inj hf
  rw [hr] at hl
  exact ⟨_, hx.grows.toAdvances, h', hl.place h.sound⟩

theorem store (h : Backed .windows u t) (va : VirtualAddress) (create : Bool) (e : EntryBits) :
    Backed .windows (u.store va create e) (t.store va create e) := by
  obtain ⟨m, hm, h'⟩ := h.onto (Performs.store h.sound va create e)
  rw [Holding.store, hm]
  exact h'

/-- Events and stores advance the tables. -/
theorem leads (h : Backed .windows u t) (hl : u.Leads v) : ∃ t', t.Advances t' ∧ Backed .windows v t' := by
  induction hl with
  | refl => exact ⟨t, .refl t, h⟩
  | next _ hf ih =>
    obtain ⟨t₁, hadv₁, h₁⟩ := ih
    obtain ⟨t', hadv, h'⟩ := h₁.next hf fun _ _ => Or.inr rfl
    exact ⟨t', hadv₁.trans hadv, h'⟩
  | store _ va create e ih =>
    obtain ⟨t₁, hadv₁, h₁⟩ := ih
    exact ⟨_, hadv₁.trans (Performs.store h₁.sound va create e).grows.toAdvances, h₁.store va create e⟩

/-- An entry in the table of a slot is what the walks of the slot read last. -/
theorem serves (h : Backed .windows u t) (hs : va.slotIndex ≠ selfMapSlot)
    (hf : t.table? va.slotIndex = some p.table) (hk : p.index = va.entryIndex) :
    p.Serves u.session.machine.ram t.root va := by
  obtain ⟨f, k⟩ := p
  obtain rfl : k = va.entryIndex := hk
  have hslot := h.sound.word?_slot va.slotIndex
  have hentry := Tables.Sound.word?_entry (h.sound.holds_table hf) va.entryIndex
  rw [h.mirrors.ram]
  refine ⟨Address.slotIndex_ne_selfMap_iff.1 hs, (Tables.links_iff h.sound).2 hf, ⟨_, hslot, ?_⟩,
    ⟨_, _, hslot, hentry, ?_⟩⟩
  · obtain ⟨-, -, hframe⟩ := DirEntry.of_table?_eq_some hf
    rw [Page.toNat_wordAddress, Page.toNat_base]
    have hnumber : f.number = (t.slot va.slotIndex).bits.toNat / 4096 := congrArg Page.number hframe.symm
    rw [← hnumber]
    rfl
  · have hwalk := h.sound.walk_of_table hf
    simp only [EntryBits.present_iff, ne_eq, ite_not] at hwalk
    exact hwalk

/-- Storing in that entry changes the walks of one page. -/
theorem stored (h : Backed .windows u t) (hs : va.slotIndex ≠ selfMapSlot)
    (hf : t.table? va.slotIndex = some p.table) (hk : p.index = va.entryIndex) (e : EntryBits) :
    p.Stored e t.ram (t.setEntry p.table p.index e).ram t.root va := by
  have hram := h.sound.holds_table hf
  have hword (f : Frame) (i : Fin 1024) : (t.setEntry p.table p.index e).ram.word? f i =
      if f = p.table ∧ i = p.index then some e.bits else t.ram.word? f i := Ram.word?_putWord hram _ _ _ _
  refine ⟨?_, ?_, ?_, ?_, ?_⟩
  · intro vb hpage
    rw [hk]
    exact h.sound.target?_setEntry hs hf e hpage
  · intro vb hpage
    refine Tables.walk_setEntry h.sound hf hs ?_ e
    rw [hk]
    exact mt (Address.page_eq_iff vb va).2 hpage
  · intro i
    rw [hword, if_neg]
    rintro ⟨hroot, -⟩
    exact h.sound.table_ne_root hf hs hroot.symm
  · rw [hword, if_pos ⟨rfl, rfl⟩]
  · intro f i hne
    rw [hword, if_neg hne]

theorem finds_of_answer (h : Backed .windows u t) {w : Option EntryWrite} {e : EntryBits}
    (ha : u.answer (.space (.locate va create w)) = .ok (.entry e)) : ∃ p m, u.Finds va create p m := by
  rw [h.answer_space] at ha
  obtain ⟨m, hm, -⟩ := h.onto (Performs.locate h.sound va create)
  rcases hr : (t.locate va create).1 with e' | (_ | p)
  · rw [Tables.step_locate_of_error hr] at ha
    cases ha
  · rw [Tables.step_locate_of_none hr] at ha
    cases ha
  · rw [hr] at hm
    exact ⟨p, m, hm⟩

/-- The step that looks an address up reads the entry that was found. -/
theorem step_of_finds (h : Backed .windows u t) (hf : u.Finds va create p m) :
    ∃ w, m.ram.word? p.table p.index = some w ∧
      u.session.step (.space (.locate va create none)) = (.ok (.entry ⟨w⟩), (u.onto m).session) := by
  obtain ⟨t', -, h', -, htable, -⟩ := h.onto_found hf
  have hword : m.ram.word? p.table p.index = some (t'.entry p.table p.index).bits := by
    rw [show m.ram = t'.ram from h'.mirrors.ram]
    exact Tables.Sound.word?_entry (h'.sound.holds_table htable) p.index
  have hread : p.read m = .ok (t'.entry p.table p.index) m :=
    Machine.run_bind _ (Machine.run_readWord hword)
  refine ⟨_, hword, spaceStep_of_ok h.space ?_⟩
  exact (Machine.run_bind _ hf).trans (Machine.run_bind _ hread)

theorem handsOut (h : Backed .windows u t) : u.HandsOut t.root where
  found _ _ _ _ := h.finds_of_answer
  place va create p m hf := by
    obtain ⟨t', hadv, h', hs, htable, hk⟩ := h.onto_found hf
    rw [← hadv.root]
    exact h'.serves hs htable hk
  answer va create p m hf := h.step_of_finds hf
  apart va create p m hf v hl vb create' q m' hq := by
    obtain ⟨t₁, -, h₁, -, hp, hpk⟩ := h.onto_found hf
    obtain ⟨t₂, hadv₂, h₂⟩ := h₁.leads hl
    obtain ⟨t', hadv', h', -, hq, hqk⟩ := h₂.onto_found hq
    -- the table that was found first is still the one of its slot
    have hp' : t'.table? va.slotIndex = some p.table :=
      ((hadv₂.trans hadv').slot va.slotIndex).table?_eq_some hp
    rw [Address.page_eq_iff, ← hpk, ← hqk]
    constructor
    · rintro rfl
      exact ⟨h'.sound.distinct _ _ _ hq hp', rfl⟩
    · rintro ⟨hi, hk⟩
      rw [hi, hp', Option.some.injEq] at hq
      exact congrArg₂ EntryPlace.mk hq.symm hk
  store va create p m hf e := by
    obtain ⟨t', hadv, h', hs, htable, hk⟩ := h.onto_found hf
    have hram : m.ram = t'.ram := h'.mirrors.ram
    have hholds : m.ram.Holds p.table := by
      rw [hram]
      exact h'.sound.holds_table htable
    refine ⟨_, Machine.run_writeWord hholds p.index e.bits, ?_⟩
    rw [hram, ← hadv.root]
    exact h'.stored hs htable hk e

end Backed

/-- At every moment after boot that events and stores lead to, lookups hand out the words that the
processor reads. -/
theorem handsOut_after (hb : u.Booted) (hl : u.Leads v) :
    ∃ root, u.session.space = some ⟨some ⟨root⟩⟩ ∧ v.HandsOut root := by
  obtain ⟨_, _, _, _, -, -, -, h⟩ := hb.backed .windows
  obtain ⟨t, hadv, h'⟩ := h.leads hl
  exact ⟨t.root, hadv.root ▸ h.space, h'.handsOut⟩

theorem handsOut_after_small : ∃ root, smallBooted.session.space = some ⟨some ⟨root⟩⟩ ∧
    (((smallBooted.next (.space (.releaseLarge ⟨0x800000⟩))).store ⟨0x801000⟩ true ⟨0x5067⟩).next
      (.cache ⟨0x801234⟩)).HandsOut root := by
  have hl : smallBooted.Leads (smallBooted.next (.space (.releaseLarge ⟨0x800000⟩))) := .next .refl trivial
  have hl' := hl.store ⟨0x801000⟩ true ⟨0x5067⟩
  exact handsOut_after booted_small (hl'.next (e := .cache ⟨0x801234⟩) trivial)

end Holding

end Paging
