import Paging.Proofs.Runs

/-!
# Translation agrees with the processor

A question for the translation of an address goes through the windows and what is cached for them. The
processor walks the raw words of memory, and knows nothing of windows. After every fair run the two
agree for every address, those of the windows included (`walksAgree_run`).
-/

namespace Paging

namespace Tables

variable {t : Tables}

/-- The flags that a translation shows are the low bits of the word that ended the walk. -/
theorem translate_eq_walk (h : t.Sound) (va : VirtualAddress) : t.translate va =
    ((t.walk va).target? va).map fun r => (r.1, ⟨r.2⟩) := by
  rw [h.walk_eq, translate]
  cases hc : (t.slot va.slotIndex).content? with
  | none => rfl
  | some c =>
    have hbits := hc
    rw [DirEntry.content?_eq] at hbits
    split at hbits
    · cases hbits
    · split at hbits <;> cases hbits
      · rfl
      · simp only [EntryBits.mapping?]
        generalize t.entry (Walk.frameOf (t.slot va.slotIndex).bits) va.entryIndex = e
        by_cases hp : e.present
        · simp only [hp, if_true, Walk.target?, Option.map_some, Walk.frameOf_eq_entry]; rfl
        · simp only [hp]; rfl

/-- A walk through sound tables stays in memory. -/
theorem walk_ne_busError (h : t.Sound) (va : VirtualAddress) (pa : PhysicalAddress) :
    t.walk va ≠ .busError pa := by
  rw [h.walk_eq]
  split
  · exact Walk.noConfusion
  · exact Walk.noConfusion
  · split <;> exact Walk.noConfusion

end Tables

/-- What an address translates to, if its walk ends like this. -/
def Walk.answer (va : VirtualAddress) (w : Walk) : Answer :=
  .ofOption (fun r => .translation r.1 ⟨r.2⟩) (w.target? va)

namespace Holding

/-- Translating an address is walking it in bare memory, from the directory in `root`. -/
structure WalksAgree (u : Holding) (root : Frame) : Prop where
  cr3 : u.session.machine.cpu.root = some root
  translate : ∀ va, (u.session.step (.space (.translate va))).1 =
    .ok ((u.session.machine.ram.walk root va).answer va)
  inMemory : ∀ va pa, u.session.machine.ram.walk root va ≠ .busError pa
  /-- The window of a slot that maps 4 MiB is decoded as a page of 4 KiB. -/
  window : ∀ va w, va.slotIndex = selfMapSlot →
    u.session.machine.ram.word? root va.entryIndex = some w → w &&& 0x81 = 0x81 →
    (u.session.step (.space (.translate va))).1 =
      .ok (.translation ((Walk.frameOf w).join (va.offset .small)) ⟨w &&& 0xFFF⟩)

variable {u : Holding} {es : List Event} {s : Scope} {t : Tables}

theorem Backed.translate (h : Backed s u t) (va : VirtualAddress) :
    (u.session.step (.space (.translate va))).1 =
      .ok ((u.session.machine.ram.walk t.root va).answer va) := by
  have hf : s.Follows (.translate va) := Or.inl trivial
  rw [(h.step_space hf).1, h.mirrors.ram]
  show Except.ok (Answer.ofOption _ (t.translate va)) = .ok ((t.walk va).answer va)
  rw [Tables.translate_eq_walk h.sound, Walk.answer]
  cases (t.walk va).target? va <;> rfl

/-- A window address leads to the frame in the upper bits of the slot, whatever the slot holds. -/
theorem Backed.walk_window (h : Backed s u t) {va : VirtualAddress} {w : UInt32}
    (hva : va.slotIndex = selfMapSlot)
    (hw : u.session.machine.ram.word? t.root va.entryIndex = some w) (hp : w &&& 0x01 ≠ 0) :
    (u.session.machine.ram.walk t.root va).target? va =
      some ((Walk.frameOf w).join (va.offset .small), w &&& 0xFFF) := by
  rw [h.mirrors.ram, h.sound.word?_slot] at hw
  obtain rfl := Option.some.inj hw
  rw [h.mirrors.ram]
  show (t.walk va).target? va = _
  rw [Tables.walk_window h.sound hva, if_pos ((DirEntry.present_iff _).2 hp)]
  rfl

theorem Backed.walksAgree (h : Backed s u t) : u.WalksAgree t.root where
  cr3 := h.mirrors.root
  translate := h.translate
  inMemory va pa := by rw [h.mirrors.ram]; exact Tables.walk_ne_busError h.sound va pa
  window va w hva hw hlarge := by
    have hp : w &&& 0x01 ≠ 0 := by
      intro h0
      have hand : w &&& 0x81 &&& 0x01 = w &&& 0x01 := by rw [UInt32.and_assoc]; rfl
      rw [hlarge, h0] at hand
      revert hand; decide
    rw [h.translate, Walk.answer, h.walk_window hva hw hp]
    rfl

/-- After every fair run, every address translates as the processor would walk it. -/
theorem walksAgree_run (hb : u.Booted) (hf : u.FairRun es) : ∃ root, (u.run es).WalksAgree root := by
  obtain ⟨m, root, table, pool, -, -, -, h⟩ := hb.backed .windows
  obtain ⟨t, -, h'⟩ := h.run hf fun _ _ => Or.inr rfl
  exact ⟨t.root, h'.walksAgree⟩

theorem walksAgree_run_small : ∃ root, (smallBooted.run [.space (.map ⟨0x3000⟩ ⟨0x2000⟩ ⟨5⟩),
    .space (.releaseLarge ⟨0x800000⟩), .cache ⟨0xFFC01000⟩]).WalksAgree root :=
  walksAgree_run booted_small ⟨trivial, trivial, trivial, trivial⟩

end Holding

end Paging
