import Paging.Proofs.Pool

/-!
# Setting up a pool

A pool is made of a bitmap and a window of frames, and is refused if either is too small: first the bitmap,
then the space up to 4 GiB. `create_setsUp` says when, and what a new pool is (`Fresh`). Its bitmap is set
exactly behind the last frame, wherever that lies between the words; places and frames of the window are
two names of the same thing, and other frames have no place. None of the figures that are reckoned with
runs over its word (`FiguresFit`).
-/

namespace Paging

namespace FramePool

/-- The figures of a new pool, each in the word that it is reckoned in. -/
structure FiguresFit (wordCount : Nat) (base : Frame) (frames : UInt32) : Prop where
  /-- The number of bits is a number of 32 bits. -/
  capacity : (UInt32.ofNat wordCount * 32).toNat = wordCount * 32
  /-- So is the place of the first bit of a word. -/
  first : ∀ w < wordCount, (UInt32.ofNat w * 32).toNat = w * 32
  /-- The end of the window is a number of 64 bits. -/
  windowEnd : (base.base.val.toUInt64 + frames.toUInt64 * 4096).toNat =
    base.base.val.toNat + frames.toNat * 4096

/-- A pool of `frames` frames from `base` on, of which none is taken. -/
structure Fresh (p : FramePool) (wordCount : Nat) (base : Frame) (frames : Nat) : Prop where
  window : p.base = base ∧ p.frames = frames
  live : p.live = 0
  words : p.words.size = wordCount
  bit : ∀ j < wordCount * 32, ∃ w, p.words[j / 32]? = some w ∧ (w.toNat.testBit (j % 32) ↔ frames ≤ j)
  /-- A place below `frames` is that of a frame. Its number is a sum that stays below that of 4 GiB. -/
  frameAt : ∀ i < frames, (p.frameAt i).number = base.number + i ∧ p.place? (p.frameAt i) = some i
  /-- The place of a frame is below `frames`, and that frame is there. -/
  place : ∀ f i, p.place? f = some i → i < frames ∧ p.frameAt i = f
  /-- The frames without a place are those outside of the window. -/
  foreign : ∀ f, p.place? f = none ↔ ¬(base.base.val.toNat ≤ f.base.val.toNat ∧
    f.base.val.toNat < base.base.val.toNat + frames * 4096)

/-- How setting up a pool ends. -/
structure SetsUp (wordCount : Nat) (base : Frame) (frames : UInt32) : Prop where
  figures : FiguresFit wordCount base frames
  ok_iff : (∃ p, create wordCount base frames.toNat = .ok p) ↔
    frames.toNat ≤ wordCount * 32 ∧ base.base.val.toNat + frames.toNat * 4096 ≤ 2 ^ 32
  /-- A bitmap that is too small is refused, whatever the window. -/
  capacityExceeded : wordCount * 32 < frames.toNat → create wordCount base frames.toNat =
    .error (.capacityExceeded frames.toNat (wordCount * 32))
  windowOverflow : frames.toNat ≤ wordCount * 32 →
    2 ^ 32 < base.base.val.toNat + frames.toNat * 4096 →
    create wordCount base frames.toNat = .error (.windowOverflow base.base)
  fresh : ∀ p, create wordCount base frames.toNat = .ok p → p.Fresh wordCount base frames.toNat

variable {p : FramePool} {wordCount : Nat} {base : Frame}

/-! ## Figures -/

theorem toNat_ofNat_mul {n : Nat} (h : n * 32 < 2 ^ 32) : (UInt32.ofNat n * 32).toNat = n * 32 := by
  rw [UInt32.toNat_mul, UInt32.toNat_ofNat', Nat.mod_eq_of_lt (show n < 2 ^ 32 by omega)]
  exact Nat.mod_eq_of_lt h

theorem figuresFit (h : wordCount * 32 < 2 ^ 32) (base : Frame) (frames : UInt32) :
    FiguresFit wordCount base frames where
  capacity := toNat_ofNat_mul h
  first w hw := toNat_ofNat_mul (by omega)
  windowEnd := by
    have hb := base.base.val.toNat_lt
    have hf := frames.toNat_lt
    have hmul : (frames.toUInt64 * 4096).toNat = frames.toNat * 4096 := by
      rw [UInt64.toNat_mul, UInt32.toNat_toUInt64, show (4096 : UInt64).toNat = 4096 from rfl]
      exact Nat.mod_eq_of_lt (by omega)
    rw [UInt64.toNat_add, hmul, UInt32.toNat_toUInt64]
    exact Nat.mod_eq_of_lt (by omega)

/-! ## A new pool -/

theorem bit_of_create {frames j : Nat} (h : create wordCount base frames = .ok p) (hj : j < wordCount * 32) :
    ∃ w, p.words[j / 32]? = some w ∧ (w.toNat.testBit (j % 32) ↔ frames ≤ j) := by
  have hsize := size_words_of_create h
  have hw : j / 32 < p.words.size := by omega
  refine ⟨p.words[j / 32], Array.getElem?_eq_getElem hw, ?_⟩
  rw [testBit_words hw (Nat.mod_lt _ (by decide)), Nat.div_add_mod', marked_of_create h hj]
  exact decide_eq_true_iff

theorem place?_eq_none_iff (f : Frame) : p.place? f = none ↔ ¬(p.base.base.val.toNat ≤ f.base.val.toNat ∧
    f.base.val.toNat < p.base.base.val.toNat + p.frames * 4096) := by
  rw [← not_iff_not, not_not, ← ne_eq, Option.ne_none_iff_isSome, ← mem_window_iff, Page.toNat_base,
    Page.toNat_base]
  show p.base.number ≤ f.number ∧ f.number < p.base.number + p.frames ↔ _
  simp only [PageSize.bytes]
  omega

theorem fresh_of_create {frames : Nat} (h : create wordCount base frames = .ok p) :
    p.Fresh wordCount base frames := by
  have hs := sound_of_create h
  obtain ⟨rfl, rfl, hlive⟩ := of_create h
  refine ⟨⟨rfl, rfl⟩, hlive, size_words_of_create h, fun j hj => bit_of_create h hj, ?_, ?_, place?_eq_none_iff⟩
  · intro i hi
    have hplace := place?_frameAt hs hi
    exact ⟨(place?_eq_some_iff.1 hplace).1, hplace⟩
  · intro f i hf
    have hi := (place?_eq_some_iff.1 hf).2
    exact ⟨hi, eq_of_place? (place?_frameAt hs hi) hf⟩

/-- **A pool is set up exactly if it fits**, and is then the empty pool of its window. -/
theorem create_setsUp (h : wordCount * 32 < 2 ^ 32) (base : Frame) (frames : UInt32) :
    SetsUp wordCount base frames where
  figures := figuresFit h base frames
  ok_iff := by
    rw [Page.toNat_base]
    simp only [create_eq_ok_iff, exists_and_left, exists_eq', and_true]
    rfl
  capacityExceeded hcap := by
    unfold create wordBits
    rw [if_pos hcap]
  windowOverflow hcap hwin := by
    rw [Page.toNat_base] at hwin
    have hend : UInt32.size < base.number * 4096 + frames.toNat * 4096 := hwin
    unfold create wordBits
    rw [if_neg (Nat.not_lt.2 hcap), if_pos hend]
  fresh _ hp := fresh_of_create hp

/-- The window of 33 frames ends behind the first bit of the second word, and at 4 GiB. -/
theorem create_setsUp_top : 2 * 32 < 2 ^ 32 ∧ SetsUp 2 (Page.ofNumber 0xFFFDF) 33 :=
  ⟨by decide, create_setsUp (by decide) _ _⟩

end FramePool

end Paging
