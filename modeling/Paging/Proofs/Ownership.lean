import Paging.Proofs.Structure

/-!
# Only owned frames are written

The paging operations own the directory and the tables that it links, and write nowhere else. From
before boot to any moment after it, whether boot succeeds or is refused, every word of every frame that
is not owned then is as it was (`Holding.Spares`). What the caller holds and what is free in the pool is
not owned; that a frame is mapped makes no difference.

`Ram.Edited` lists what `map` and `unmap` may write. Both come together in `ownership_run`.
-/

namespace Paging

/-- Memory after an operation on the page of `va` alone, with the directory in `root` and the pool `p`:
unchanged, or with another entry in the table of the slot, or with a new table that has one entry. -/
inductive Ram.Edited (r : Ram) (root : Frame) (p : FramePool) (va : VirtualAddress) : Ram → Prop where
  | nothing : Edited r root p va r
  | entry {f : Frame} (hs : va.slotIndex ≠ selfMapSlot) (hf : r.Links root va.slotIndex f) (w : UInt32) :
    Edited r root p va (r.putWord f va.entryIndex w)
  | table {f : Frame} (hs : va.slotIndex ≠ selfMapSlot) (habs : r.word? root va.slotIndex = some 0)
    (hf : p.isLive f = false) (w : UInt32) : Edited r root p va
      (((r.putWord root va.slotIndex (f.base.val ||| 0x7)).putFrame f PageTable.empty.words).putWord f
        va.entryIndex w)

namespace Tables

variable {t : Tables} {i : SlotIndex} {f : Frame} {pool : FramePool}

theorem ram_link (t : Tables) (i : SlotIndex) (f : Frame) (pool : FramePool) : (t.link i f pool).ram =
    (t.ram.putWord t.root i (f.base.val ||| 0x7)).putFrame f PageTable.empty.words := by
  rw [← DirEntry.bits_link_userRw f]; rfl

theorem map_edits (h : t.Sound) (va : VirtualAddress) (pa : PhysicalAddress) (flags : EntryBits) :
    t.ram.Edited t.root t.pool va (t.map va pa flags).2.ram := by
  have hl := located t va true
  unfold map
  generalize t.locate va true = r at hl ⊢
  obtain ⟨r, t'⟩ := r
  cases hl with
  | window | large | noFrame => exact .nothing
  | table hs hf => exact .entry hs ((links_iff h).2 hf) _
  | @created f pool hs hc ht =>
    obtain ⟨-, -, habs⟩ := (h.shape _).of_content?_eq_none hc
    have hword := h.word?_slot va.slotIndex
    rw [habs] at hword
    have hedit := Ram.Edited.table hs hword (FramePool.take_spec h.pool ht).1
      (EntryBits.leaf (pa.page .small) flags).bits
    rw [← ram_link t va.slotIndex f pool] at hedit
    exact hedit

theorem unmap_edits (h : t.Sound) (va : VirtualAddress) : (t.unmap va).ram = t.ram ∨
    ∃ f, va.slotIndex ≠ selfMapSlot ∧ t.ram.Links t.root va.slotIndex f ∧
      (t.unmap va).ram = t.ram.putWord f va.entryIndex 0 := by
  have hl := located t va false
  unfold unmap
  generalize t.locate va false = r at hl ⊢
  obtain ⟨r, t'⟩ := r
  cases hl with
  | window | large | absent => exact Or.inl rfl
  | table hs hf =>
    simp only
    split
    · exact Or.inr ⟨_, hs, (links_iff h).2 hf, rfl⟩
    · exact Or.inl rfl

end Tables

namespace Holding

/-- The directory and the tables that it links. -/
def Owned (u : Holding) : Set Frame := fun f => ∃ root, u.session.space = some ⟨some ⟨root⟩⟩ ∧
  (f = root ∨ ∃ i, u.session.machine.ram.Links root i f)

/-- What can be said of memory between a moment and a later one. -/
structure Spares (u v : Holding) : Prop where
  grows : u.Owned ⊆ v.Owned
  others : ∀ f, f ∉ v.Owned → v.session.machine.ram.frame? f = u.session.machine.ram.frame? f
  held : ∀ f ∈ v.held, f ∉ v.Owned
  free : ∀ f, v.session.machine.pool.isLive f = false → f ∉ v.Owned

/-- What a single `map` or `unmap` may write. -/
structure WritesLittle (u : Holding) : Prop where
  map : ∀ va pa flags,
    (u.next (.space (.map va pa flags))).session.machine.ram = u.session.machine.ram ∨
      ∃ root, u.session.space = some ⟨some ⟨root⟩⟩ ∧
        u.session.machine.ram.Edited root u.session.machine.pool va
          (u.next (.space (.map va pa flags))).session.machine.ram
  unmap : ∀ va, (u.next (.space (.unmap va))).session.machine.ram = u.session.machine.ram ∨
    ∃ root f, u.session.space = some ⟨some ⟨root⟩⟩ ∧ va.slotIndex ≠ selfMapSlot ∧
      u.session.machine.ram.Links root va.slotIndex f ∧
        (u.next (.space (.unmap va))).session.machine.ram =
          u.session.machine.ram.putWord f va.entryIndex 0

variable {u v : Holding} {es es' : List Event} {F F' : Set Frame}

namespace Standing

theorem owned (h : u.Standing F) : u.Owned = F := by
  ext f
  cases h with
  | idle h =>
    constructor
    · rintro ⟨root, hspace, -⟩
      rw [h.space] at hspace; cases hspace
    · intro hf
      exact absurd hf id
  | @backed t h =>
    have hlinks (i : SlotIndex) : u.session.machine.ram.Links t.root i f ↔ t.table? i = some f := by
      rw [h.mirrors.ram]; exact Tables.links_iff h.sound
    constructor
    · rintro ⟨root, hspace, hf⟩
      rw [h.space] at hspace
      cases hspace
      rcases hf with rfl | ⟨i, hi⟩
      · exact h.sound.root_mem_owned
      · exact ⟨i, (hlinks i).1 hi⟩
    · rintro ⟨i, hi⟩
      exact ⟨t.root, h.space, Or.inr ⟨i, (hlinks i).2 hi⟩⟩

theorem spares (h : u.Standing F) (h' : v.Standing F') (hsub : F ⊆ F')
    (hram : ∀ f, f ∉ F' → v.session.machine.ram.frame? f = u.session.machine.ram.frame? f) : u.Spares v := by
  refine ⟨?_, ?_, ?_, ?_⟩
  · rw [h.owned, h'.owned]; exact hsub
  · rw [h'.owned]; exact hram
  · intro f hf
    rw [h'.owned]; exact h'.not_mem_of_held hf
  · intro f hf hmem
    rw [h'.owned] at hmem
    rw [h'.isLive hmem] at hf; cases hf

theorem writesLittle (h : u.Standing F) : u.WritesLittle := by
  cases h with
  | idle h => exact ⟨fun _ _ _ => Or.inl (ram_next_idle h _), fun _ => Or.inl (ram_next_idle h _)⟩
  | @backed t h =>
    constructor
    · intro va pa flags
      obtain ⟨-, -, h'⟩ := h.step_space (p := .map va pa flags) (Or.inr rfl)
      refine Or.inr ⟨t.root, h.space, ?_⟩
      rw [h'.mirrors.ram, h.mirrors.ram, h.mirrors.pool]
      exact Tables.map_edits h.sound va pa flags
    · intro va
      obtain ⟨-, -, h'⟩ := h.step_space (p := .unmap va) (Or.inr rfl)
      have hram : (u.next (.space (.unmap va))).session.machine.ram = (t.unmap va).ram := h'.mirrors.ram
      rw [hram, h.mirrors.ram]
      rcases Tables.unmap_edits h.sound va with heq | ⟨f, hs, hf, heq⟩
      · exact Or.inl heq
      · exact Or.inr ⟨t.root, f, h.space, hs, hf, heq⟩

end Standing

/-- From before boot on, whatever becomes of it, nothing is written but the directory and its tables. -/
theorem ownership_run (hu : u.Unbooted) (hf : u.afterBoot.FairRun (es ++ es')) :
    u.Spares (u.afterBoot.run (es ++ es')) ∧
      (u.afterBoot.run es).Spares (u.afterBoot.run (es ++ es')) ∧ (u.afterBoot.run es).WritesLittle := by
  have hidle := hu.idle
  obtain ⟨F, h, hram⟩ := hidle.standing_afterBoot
  obtain ⟨hf₁, hf₂⟩ := harmlessRun_append.1 hf.harmless
  obtain ⟨F₁, hsub₁, h₁, hram₁⟩ := h.run hf₁
  obtain ⟨F₂, hsub₂, h₂, hram₂⟩ := h₁.run hf₂
  rw [← run_append] at h₂ hram₂
  refine ⟨(Standing.idle hidle).spares h₂ (Set.empty_subset F₂) ?_, h₁.spares h₂ hsub₂ hram₂,
    h₁.writesLittle⟩
  intro f hf
  have hf₁ : f ∉ F₁ := fun hmem => hf (hsub₂ hmem)
  have hf₀ : f ∉ F := fun hmem => hf₁ (hsub₁ hmem)
  calc (u.afterBoot.run (es ++ es')).session.machine.ram.frame? f
    _ = (u.afterBoot.run es).session.machine.ram.frame? f := hram₂ f hf
    _ = u.afterBoot.session.machine.ram.frame? f := hram₁ f hf₁
    _ = u.session.machine.ram.frame? f := hram f hf₀

theorem ownership_run_small :
    small.Spares (small.afterBoot.run ([.space (.releaseLarge ⟨0x400000⟩), .pool .take] ++
      [.space (.map ⟨0x400000⟩ ⟨0x12000⟩ ⟨3⟩), .space (.unmap ⟨0x3000⟩)])) ∧
    (small.afterBoot.run [.space (.releaseLarge ⟨0x400000⟩), .pool .take]).Spares
      (small.afterBoot.run ([.space (.releaseLarge ⟨0x400000⟩), .pool .take] ++
        [.space (.map ⟨0x400000⟩ ⟨0x12000⟩ ⟨3⟩), .space (.unmap ⟨0x3000⟩)])) ∧
    (small.afterBoot.run [.space (.releaseLarge ⟨0x400000⟩), .pool .take]).WritesLittle :=
  ownership_run unbooted_small ⟨trivial, trivial, trivial, trivial, trivial⟩

end Holding

end Paging
