import Paging.Proofs.Runs

/-!
# The structure of the active address space

`Holding.Intact` says in raw words what an address space with its directory in `root` keeps: the
self-map, the processor and the root record all name `root`; every other slot has one of three forms;
the directory and the linked tables are different frames; and each of them is a live frame of the
pool, which the pool hands out to nobody. It holds after boot and after every fair run of events
(`intact_run`), whether the steps in it succeed or are refused halfway.
-/

namespace Paging

/-- Slot `i` of the directory in `root` links the table in `f`. -/
def Ram.Links (r : Ram) (root : Frame) (i : SlotIndex) (f : Frame) : Prop :=
  ∃ w, r.word? root i = some w ∧ w &&& 0x01 ≠ 0 ∧ w &&& 0x80 = 0 ∧ Walk.frameOf w = f

/-- The pool counts `f` among its live frames, so that it hands `f` out neither by itself nor by name. -/
structure FramePool.Withholds (p : FramePool) (f : Frame) : Prop where
  inWindow : (p.place? f).isSome
  live : p.isLive f
  not_taken : ∀ g p', p.takeLowest? = some (g, p') → g ≠ f
  not_reserved : p.reserve? f = none

namespace Holding

structure Intact (u : Holding) (root : Frame) : Prop where
  selfMap : u.session.machine.ram.word? root selfMapSlot = some (root.base.val ||| 0x3)
  cr3 : u.session.machine.cpu.root = some root
  record : u.session.space = some ⟨some ⟨root⟩⟩
  slots : ∀ i, i ≠ selfMapSlot → ∃ w, u.session.machine.ram.word? root i = some w ∧
    (w = 0 ∨ w = (SlotIndex.base i).val ||| 0x83 ∨
      ∃ f, u.session.machine.ram.Links root i f ∧ w = f.base.val ||| if i = 0 then 0x3 else 0x7)
  apart : ∀ i f, i ≠ selfMapSlot → u.session.machine.ram.Links root i f → f ≠ root
  distinct : ∀ i j f, u.session.machine.ram.Links root i f → u.session.machine.ram.Links root j f → i = j
  withheld : ∀ i f, u.session.machine.ram.Links root i f → u.session.machine.pool.Withholds f
  directory : u.session.machine.pool.Withholds root

end Holding

namespace FramePool

variable {p : FramePool} {f : Frame}

theorem withholds_of_isLive (h : p.Sound) (hf : p.isLive f) : p.Withholds f where
  inWindow := place?_of_isLive hf
  live := hf
  not_taken g p' ht := by
    rintro rfl
    rw [(take_spec h ht).1] at hf; cases hf
  not_reserved := by
    cases hr : p.reserve? f with
    | none => rfl
    | some p' => rw [(reserve_spec h hr).1] at hf; cases hf

end FramePool

namespace Tables

variable {t : Tables} {i : SlotIndex} {f : Frame}

/-- The links that can be seen in memory are those that the tables count. -/
theorem links_iff (h : t.Sound) : t.ram.Links t.root i f ↔ t.table? i = some f := by
  unfold Ram.Links
  rw [h.word?_slot]
  constructor
  · rintro ⟨w, hw, hp, hs, rfl⟩
    obtain rfl := Option.some.inj hw
    exact DirEntry.table?_eq_some_of_bits hp hs
  · intro hf
    exact ⟨_, rfl, DirEntry.of_table?_eq_some hf⟩

/-- Every slot below the self-map has one of three forms. -/
theorem Sound.slot_forms (h : t.Sound) (hi : i ≠ selfMapSlot) : (t.slot i).bits = 0 ∨
    (t.slot i).bits = (SlotIndex.base i).val ||| 0x83 ∨
      ∃ f, t.table? i = some f ∧ (t.slot i).bits = f.base.val ||| if i = 0 then 0x3 else 0x7 := by
  have hshape := h.shape i
  rw [Tables.table?]
  generalize t.slot i = e at hshape ⊢
  cases hshape with
  | selfMap => exact absurd rfl hi
  | bootTable f =>
    exact Or.inr (Or.inr ⟨f, DirEntry.table?_link _ f, by rw [DirEntry.bits_link_supervisorRw]; rfl⟩)
  | absent h0 hs => exact Or.inl rfl
  | large h0 hs => exact Or.inr (Or.inl (DirEntry.bits_large_supervisorRw _))
  | table h0 hs f =>
    exact Or.inr (Or.inr ⟨f, DirEntry.table?_link _ f, by rw [DirEntry.bits_link_userRw, if_neg h0]⟩)

end Tables

namespace Holding

variable {u : Holding} {es : List Event}

/-- An address space that sound tables stand behind is intact. -/
theorem Backed.intact {s : Scope} {t : Tables} (h : Backed s u t) : u.Intact t.root := by
  have hlinks {i : SlotIndex} {f : Frame} : u.session.machine.ram.Links t.root i f ↔ t.table? i = some f := by
    rw [h.mirrors.ram]; exact Tables.links_iff h.sound
  have hword (i : SlotIndex) : u.session.machine.ram.word? t.root i = some (t.slot i).bits := by
    rw [h.mirrors.ram]; exact h.sound.word?_slot i
  have hwithheld {f : Frame} (hf : t.pool.isLive f) : u.session.machine.pool.Withholds f := by
    rw [h.mirrors.pool]; exact FramePool.withholds_of_isLive h.sound.pool hf
  refine ⟨?_, h.mirrors.root, h.space, ?_, ?_, ?_, ?_, hwithheld h.sound.root_live⟩
  · rw [hword, h.sound.slot_selfMap, DirEntry.bits_link_supervisorRw]
  · intro i hi
    refine ⟨_, hword i, ?_⟩
    simp only [hlinks]
    exact h.sound.slot_forms hi
  · intro i f hi hf
    exact h.sound.table_ne_root (hlinks.1 hf) hi
  · intro i j f hi hj
    exact h.sound.distinct i j f (hlinks.1 hi) (hlinks.1 hj)
  · intro i f hf
    exact hwithheld (h.sound.live i f (hlinks.1 hf))

/-- Nothing that a fair caller and the processor do, in any order, breaks the address space of boot. -/
theorem intact_run (hb : u.Booted) (hf : u.FairRun es) :
    ∃ root, u.session.space = some ⟨some ⟨root⟩⟩ ∧ (u.run es).Intact root := by
  obtain ⟨m, root, table, pool, -, -, -, h⟩ := hb.backed .windows
  obtain ⟨t, hroot, h'⟩ := h.run hf fun _ _ => Or.inr rfl
  have hroot : t.root = root := hroot
  exact ⟨root, h.space, hroot ▸ h'.intact⟩

theorem intact_run_small : ∃ root, smallBooted.session.space = some ⟨some ⟨root⟩⟩ ∧
    (smallBooted.run [.space (.releaseLarge ⟨0x400000⟩), .pool .take,
      .space (.map ⟨0x401000⟩ ⟨0x2000⟩ ⟨3⟩), .pool (.reserve ⟨0x17000⟩), .space (.unmap ⟨0x401000⟩)]).Intact
      root :=
  intact_run booted_small ⟨trivial, trivial, trivial, trivial, trivial, trivial⟩

end Holding

end Paging
