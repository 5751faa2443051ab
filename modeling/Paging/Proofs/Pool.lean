import Mathlib.Data.Finset.Card
import Mathlib.Order.Bounds.Defs
import Paging.Pool.Basic
import Paging.Proofs.Word

/-!
# The pool as a set of live frames

`FramePool.Sound` is what every pool keeps: its frames are physical memory addresses, the bitmap has
a bit for each, the bits behind the last frame are set, and the counter counts the set bits before
it. Under it the bitmap operations are operations on a set: `take_spec`, `reserve_spec` and
`release_spec` say which frame changes sides, and that no other does. The frame that is taken is the
lowest of the free ones (`take_isLeast`). Nothing but the window and the set is in a pool
(`eq_of_isLive`).
-/

namespace Paging

namespace FramePool

/-- The places of the live frames. -/
def livePlaces (p : FramePool) : Finset Nat := (Finset.range p.frames).filter fun i => p.marked i

structure Sound (p : FramePool) : Prop where
  window : p.base.number + p.frames ≤ PageSize.small.pageCount
  capacity : p.frames ≤ p.words.size * 32
  tail : ∀ i, p.frames ≤ i → i < p.words.size * 32 → p.marked i
  count : p.live = p.livePlaces.card

/-- The `n` frames from `base` on. -/
def framesFrom (base : Frame) (n : Nat) : Set Frame :=
  fun f => base.number ≤ f.number ∧ f.number < base.number + n

/-- The frames that the pool manages, live or not. -/
def window (p : FramePool) : Set Frame := framesFrom p.base p.frames

/-- The frames that are there to be handed out. -/
def freeFrames (p : FramePool) : Set Frame := fun f => f ∈ p.window ∧ p.isLive f = false

/-- `p'` has the window of `p`, and a bitmap of the same size. -/
structure SameWindow (p p' : FramePool) : Prop where
  base : p'.base = p.base
  frames : p'.frames = p.frames
  words : p'.words.size = p.words.size

variable {p p' : FramePool} {i j : Nat} {f g : Frame}

theorem mem_livePlaces : i ∈ p.livePlaces ↔ i < p.frames ∧ p.marked i := by
  simp [livePlaces]

theorem Sound.live_le (h : p.Sound) : p.live ≤ p.frames := by
  rw [h.count]
  calc p.livePlaces.card ≤ (Finset.range p.frames).card := Finset.card_filter_le _ _
    _ = p.frames := Finset.card_range _

/-! ## Places and frames -/

theorem place?_eq_some_iff : p.place? f = some i ↔ f.number = p.base.number + i ∧ i < p.frames := by
  unfold place?
  split
  · simp only [Option.some.injEq]; omega
  · simp only [false_iff, reduceCtorEq]; omega

theorem place?_frameAt (h : p.Sound) (hi : i < p.frames) : p.place? (p.frameAt i) = some i := by
  have := h.window
  rw [place?_eq_some_iff]
  simp only [frameAt, Page.ofNumber]
  rw [Nat.mod_eq_of_lt (by omega)]
  exact ⟨rfl, hi⟩

theorem eq_of_place? (hf : p.place? f = some i) (hg : p.place? g = some i) : f = g := by
  rw [place?_eq_some_iff] at hf hg
  exact Page.ext (by omega)

theorem isLive_iff : p.isLive f ↔ ∃ i, p.place? f = some i ∧ p.marked i := by
  unfold isLive
  cases p.place? f <;> simp

theorem place?_of_isLive (h : p.isLive f) : (p.place? f).isSome := by
  obtain ⟨i, hi, _⟩ := isLive_iff.1 h
  rw [hi]; rfl

theorem mem_window_iff : f ∈ p.window ↔ (p.place? f).isSome := by
  constructor
  · rintro ⟨hle, hlt⟩
    have hp : p.place? f = some (f.number - p.base.number) := place?_eq_some_iff.2 (by omega)
    rw [hp]; rfl
  · intro h
    obtain ⟨i, hi⟩ := Option.isSome_iff_exists.1 h
    obtain ⟨hn, hlt⟩ := place?_eq_some_iff.1 hi
    exact ⟨by omega, by omega⟩

theorem mem_window_of_isLive (h : p.isLive f) : f ∈ p.window := mem_window_iff.2 (place?_of_isLive h)

/-! ## One bit of the bitmap -/

theorem marked_mark (hi : i < p.words.size * 32) (b : Bool) (j : Nat) :
    (p.mark i b).marked j = if j = i then b else p.marked j := by
  have hw : i / 32 < p.words.size := by omega
  simp only [marked, mark, Array.getD_eq_getD_getElem?, Array.getElem?_modify]
  by_cases hij : i / 32 = j / 32
  · rw [if_pos hij, ← hij, Array.getElem?_eq_getElem hw]
    simp only [Option.map_some, Option.getD_some]
    by_cases hj : j = i
    · subst hj; rw [if_pos rfl, Field.test_put rfl]
    · rw [if_neg hj, Field.test_put_of_disjoint]
      simp only [Field.Disjoint, bit]; omega
  · rw [if_neg hij, if_neg (by rintro rfl; exact hij rfl)]

theorem size_words_mark (b : Bool) : (p.mark i b).words.size = p.words.size := by
  simp [mark]

theorem place?_mark (b : Bool) (f : Frame) : (p.mark i b).place? f = p.place? f := rfl

theorem livePlaces_mark (hi : i < p.frames) (hc : p.frames ≤ p.words.size * 32) (b : Bool) :
    (p.mark i b).livePlaces = if b then insert i p.livePlaces else p.livePlaces.erase i := by
  ext j
  rw [mem_livePlaces, marked_mark (by omega)]
  show j < p.frames ∧ _ ↔ _
  by_cases hj : j = i
  · subst hj; cases b <;> simp [hi]
  · cases b <;> simp [hj, mem_livePlaces]

/-- Setting a clear bit, or clearing a set one, keeps the pool sound. -/
theorem Sound.mark (h : p.Sound) (hi : i < p.frames) {b : Bool} (hb : p.marked i = !b) :
    (p.mark i b).Sound where
  window := h.window
  capacity := by rw [size_words_mark]; exact h.capacity
  tail j hj hlt := by
    have hcap := h.capacity
    rw [size_words_mark] at hlt
    have hji : p.frames ≤ j := hj
    rw [marked_mark (by omega), if_neg (by omega)]
    exact h.tail j hj hlt
  count := by
    rw [livePlaces_mark hi h.capacity]
    cases b with
    | true =>
      have : i ∉ p.livePlaces := by rw [mem_livePlaces]; simp [hb]
      rw [if_pos rfl, Finset.card_insert_of_notMem this, ← h.count]; rfl
    | false =>
      have : i ∈ p.livePlaces := by rw [mem_livePlaces]; simp [hb, hi]
      rw [if_neg (by simp), Finset.card_erase_of_mem this, ← h.count]; rfl

theorem isLive_mark (h : p.Sound) (hf : p.place? f = some i) (b : Bool) (g : Frame) :
    (p.mark i b).isLive g = if g = f then b else p.isLive g := by
  have hi := (place?_eq_some_iff.1 hf).2
  have hcap := h.capacity
  unfold isLive
  rw [place?_mark]
  by_cases hg : g = f
  · subst hg; rw [if_pos rfl, hf]; simp only; rw [marked_mark (by omega), if_pos rfl]
  · rw [if_neg hg]
    cases hp : p.place? g with
    | none => rfl
    | some j =>
      have hne : j ≠ i := by rintro rfl; exact hg (eq_of_place? hp hf)
      simp only; rw [marked_mark (by omega), if_neg hne]

/-! ## The lowest clear bit -/

theorem test_bit_ones (j : Fin 32) : (bit j).test 0xFFFFFFFF = true := by
  rw [Field.test_eq_testBit rfl]
  show (2 ^ 32 - 1).testBit j.val = true
  rw [Nat.testBit_two_pow_sub_one]; simp

theorem lowestClear?_eq_none {w : UInt32} (h : lowestClear? w = none) : w = 0xFFFFFFFF := by
  apply Field.eq_of_testBit
  intro j hj
  have := List.find?_eq_none.1 h ⟨j, hj⟩ (List.mem_finRange _)
  rw [Field.test_eq_testBit rfl] at this
  have hones := test_bit_ones ⟨j, hj⟩
  rw [Field.test_eq_testBit rfl] at hones
  simp only [bit] at this hones
  rw [hones]; simpa using this

/-- The search finds a clear bit. -/
theorem marked_of_lowestFree? (h : p.lowestFree? = some i) :
    i < p.words.size * 32 ∧ p.marked i = false := by
  unfold lowestFree? at h
  obtain ⟨w, hw, h⟩ := Option.bind_eq_some_iff.1 h
  obtain ⟨j, hj, h⟩ := Option.bind_eq_some_iff.1 h
  obtain ⟨hlt, -, -⟩ := Array.findIdx?_eq_some_iff_getElem.1 hw
  have hclear := List.find?_some hj
  have hjlt := j.isLt
  obtain rfl : w * 32 + j.val = i := by simpa [wordBits] using h
  refine ⟨by omega, ?_⟩
  unfold marked
  rw [show (w * 32 + j.val) / 32 = w by omega, show (⟨(w * 32 + j.val) % 32, _⟩ : Fin 32) = j from
    Fin.ext (by simp only; omega)]
  simpa using hclear

/-- The search fails only if no bit is clear. -/
theorem marked_of_lowestFree?_eq_none (h : p.lowestFree? = none) (hi : i < p.words.size * 32) :
    p.marked i = true := by
  have hw : i / 32 < p.words.size := by omega
  cases hfind : p.words.findIdx? (· != 0xFFFFFFFF) with
  | none =>
    have := Array.findIdx?_eq_none_iff.1 hfind p.words[i / 32] (Array.getElem_mem hw)
    have hones : p.words[i / 32] = 0xFFFFFFFF := by simpa using this
    rw [marked, Array.getD_eq_getD_getElem?, Array.getElem?_eq_getElem hw, Option.getD_some, hones]
    exact test_bit_ones _
  | some w =>
    -- a word that is not all ones has a clear bit, so the search would have succeeded
    obtain ⟨hlt, hne, -⟩ := Array.findIdx?_eq_some_iff_getElem.1 hfind
    unfold lowestFree? at h
    rw [hfind] at h
    cases hclear : lowestClear? (p.words.getD w 0) with
    | some j => rw [Option.bind_eq_bind, Option.bind_some, hclear] at h; simp at h
    | none =>
      have hones := lowestClear?_eq_none hclear
      rw [Array.getD_eq_getD_getElem?, Array.getElem?_eq_getElem hlt, Option.getD_some] at hones
      rw [hones] at hne; simp at hne

/-- Places below the lowest clear bit are marked. -/
theorem marked_of_lt_lowestFree? (h : p.lowestFree? = some i) (hj : j < i) : p.marked j = true := by
  unfold lowestFree? at h
  obtain ⟨w, hw, h⟩ := Option.bind_eq_some_iff.1 h
  obtain ⟨b, hb, h⟩ := Option.bind_eq_some_iff.1 h
  obtain ⟨hlt, -, hbefore⟩ := Array.findIdx?_eq_some_iff_getElem.1 hw
  obtain ⟨-, k, hk, hkb, hbits⟩ := List.find?_eq_some_iff_getElem.1 hb
  obtain rfl : w * 32 + b.val = i := by simpa [wordBits] using h
  have hkb : k = b.val := by rw [← hkb, List.getElem_finRange]; rfl
  have hblt := b.isLt
  rw [marked, Array.getD_eq_getD_getElem?, Array.getElem?_eq_getElem (by omega), Option.getD_some]
  by_cases hword : j / 32 < w
  · -- a word before the one that was searched is all ones
    have hones : p.words[j / 32] = 0xFFFFFFFF := by simpa using hbefore (j / 32) hword
    rw [hones]
    exact test_bit_ones _
  · have hjw : j / 32 = w := by omega
    have hbit := hbits (j % 32) (by omega)
    rw [List.getElem_finRange, Array.getD_eq_getD_getElem?, Array.getElem?_eq_getElem hlt,
      Option.getD_some] at hbit
    simp only [hjw]
    simpa using hbit

/-! ## The operations -/

/-- Taking a frame makes one frame live that was not, and no other. -/
theorem take_spec (h : p.Sound) {p' : FramePool} (ht : p.takeLowest? = some (f, p')) :
    p.isLive f = false ∧ p'.Sound ∧ (∀ g, p'.isLive g = if g = f then true else p.isLive g) ∧
      (∀ g, p'.place? g = p.place? g) ∧ p.free = p'.free + 1 := by
  obtain ⟨i, hi, hfp⟩ := Option.map_eq_some_iff.1 ht
  obtain ⟨rfl, rfl⟩ := Prod.mk.inj hfp
  obtain ⟨hlt, hclear⟩ := marked_of_lowestFree? hi
  have hif : i < p.frames := by
    by_contra hge
    rw [h.tail i (by omega) hlt] at hclear
    exact absurd hclear (by simp)
  have hplace := place?_frameAt h hif
  have hs := h.mark hif (b := true) (by simpa using hclear)
  refine ⟨?_, hs, ?_, fun g => rfl, ?_⟩
  · simp only [isLive, hplace, hclear]
  · intro g
    exact isLive_mark h hplace true g
  · have hle : (p.mark i true).live ≤ p.frames := hs.live_le
    have hlive : (p.mark i true).live = p.live + 1 := rfl
    show p.frames - p.live = p.frames - (p.mark i true).live + 1
    omega

/-- Only an empty pool hands out nothing. -/
theorem takeLowest?_eq_none_iff (h : p.Sound) : p.takeLowest? = none ↔ p.free = 0 := by
  constructor
  · intro ht
    have hn : p.lowestFree? = none := Option.map_eq_none_iff.1 ht
    have hall : p.livePlaces = Finset.range p.frames := by
      apply Finset.filter_true_of_mem
      intro i hi
      have := h.capacity
      exact marked_of_lowestFree?_eq_none hn (by have := Finset.mem_range.1 hi; omega)
    have := h.count
    rw [hall, Finset.card_range] at this
    simp only [free]; omega
  · intro hz
    cases ht : p.takeLowest? with
    | none => rfl
    | some fp =>
      obtain ⟨f, p'⟩ := fp
      have hfree := (take_spec h ht).2.2.2.2
      omega

theorem exists_take (h : p.Sound) (hf : p.free ≠ 0) : ∃ f p', p.takeLowest? = some (f, p') := by
  cases ht : p.takeLowest? with
  | none => exact absurd ((takeLowest?_eq_none_iff h).1 ht) hf
  | some fp => exact ⟨fp.1, fp.2, rfl⟩

/-- When no frame is left, every frame of the window is live. -/
theorem isLive_of_free_eq_zero (h : p.Sound) (hz : p.free = 0) (hf : f ∈ p.window) : p.isLive f := by
  obtain ⟨i, hi⟩ := Option.isSome_iff_exists.1 (mem_window_iff.1 hf)
  have hcap := h.capacity
  have hlt := (place?_eq_some_iff.1 hi).2
  have hnone : p.lowestFree? = none := Option.map_eq_none_iff.1 ((takeLowest?_eq_none_iff h).2 hz)
  exact isLive_iff.2 ⟨i, hi, marked_of_lowestFree?_eq_none hnone (by omega)⟩

/-- The frame that is handed out is the lowest of the free ones. -/
theorem take_isLeast (h : p.Sound) (ht : p.takeLowest? = some (f, p')) : IsLeast p.freeFrames f := by
  obtain ⟨i, hi, hfp⟩ := Option.map_eq_some_iff.1 ht
  obtain ⟨rfl, -⟩ := Prod.mk.inj hfp
  obtain ⟨hdead, hs, hlive, hplace, -⟩ := take_spec h ht
  have hwin : p.frameAt i ∈ p.window := by
    rw [mem_window_iff, ← hplace]
    exact place?_of_isLive (by rw [hlive, if_pos rfl])
  refine ⟨⟨hwin, hdead⟩, ?_⟩
  rintro g ⟨hg, hgdead⟩
  obtain ⟨k, hk⟩ := Option.isSome_iff_exists.1 (mem_window_iff.1 hg)
  obtain ⟨hgn, hkf⟩ := place?_eq_some_iff.1 hk
  have hik : i ≤ k := by
    by_contra hlt
    have hm := marked_of_lt_lowestFree? hi (show k < i by omega)
    simp only [isLive, hk, hm] at hgdead
    cases hgdead
  have hsize := h.window
  show (p.base.number + i) % PageSize.small.pageCount ≤ g.number
  rw [Nat.mod_eq_of_lt (by omega)]
  omega

/-- The lowest free frame is handed out. -/
theorem take_of_isLeast (h : p.Sound) (hf : IsLeast p.freeFrames f) : ∃ p', p.takeLowest? = some (f, p') := by
  cases ht : p.takeLowest? with
  | none =>
    have hlive := isLive_of_free_eq_zero h ((takeLowest?_eq_none_iff h).1 ht) hf.1.1
    rw [hf.1.2] at hlive; cases hlive
  | some gp =>
    obtain ⟨g, p'⟩ := gp
    have hg := take_isLeast h ht
    have hle : g.number ≤ f.number := hg.2 hf.1
    have hge : f.number ≤ g.number := hf.2 hg.1
    obtain rfl : g = f := Page.ext (by omega)
    exact ⟨p', rfl⟩

/-- A reserved frame was free; it is live from then on. -/
theorem reserve_spec (h : p.Sound) {p' : FramePool} (hr : p.reserve? f = some p') :
    p.isLive f = false ∧ p'.Sound ∧ (∀ g, p'.isLive g = if g = f then true else p.isLive g) ∧
      (∀ g, p'.place? g = p.place? g) := by
  unfold reserve? at hr
  cases hp : p.place? f with
  | none => rw [hp] at hr; simp at hr
  | some i =>
    rw [hp] at hr
    cases hm : p.marked i with
    | true => simp [hm] at hr
    | false =>
      obtain rfl : p.mark i true = p' := by simpa [hm] using hr
      refine ⟨by simp only [isLive, hp, hm], h.mark (place?_eq_some_iff.1 hp).2 (by simpa using hm),
        fun g => isLive_mark h hp true g, fun g => rfl⟩

/-- Giving a live frame back makes that frame free, and no other. -/
theorem release_spec (h : p.Sound) (hf : p.isLive f) : ∃ p', p.release f = .released p' ∧ p'.Sound ∧
    (∀ g, p'.isLive g = if g = f then false else p.isLive g) ∧ (∀ g, p'.place? g = p.place? g) := by
  obtain ⟨i, hp, hm⟩ := isLive_iff.1 hf
  refine ⟨p.mark i false, ?_, h.mark (place?_eq_some_iff.1 hp).2 (by simpa using hm),
    fun g => isLive_mark h hp false g, fun g => rfl⟩
  simp only [release, hp, hm, if_true]

/-! ## The window stays -/

namespace SameWindow

theorem refl (p : FramePool) : p.SameWindow p := ⟨rfl, rfl, rfl⟩

theorem trans {p'' : FramePool} (h : p.SameWindow p') (h' : p'.SameWindow p'') : p.SameWindow p'' :=
  ⟨h'.base.trans h.base, h'.frames.trans h.frames, h'.words.trans h.words⟩

theorem mark (p : FramePool) (i : Nat) (b : Bool) : p.SameWindow (p.mark i b) :=
  ⟨rfl, rfl, size_words_mark b⟩

theorem take (h : p.takeLowest? = some (f, p')) : p.SameWindow p' := by
  obtain ⟨i, -, hi⟩ := Option.map_eq_some_iff.1 h
  obtain ⟨-, rfl⟩ := Prod.mk.inj hi
  exact mark p i true

theorem reserve (h : p.reserve? f = some p') : p.SameWindow p' := by
  unfold reserve? at h
  split at h
  · rename_i i _
    split at h
    · cases h
    · obtain rfl := Option.some.inj h
      exact mark p i true
  · cases h

theorem window (h : p.SameWindow p') : p'.window = p.window := by
  unfold FramePool.window
  rw [h.base, h.frames]

theorem release (h : p.release f = .released p') : p.SameWindow p' := by
  unfold FramePool.release at h
  split at h
  · cases h
  · rename_i i _
    split at h
    · obtain rfl := Release.released.inj h
      exact mark p i false
    · cases h

end SameWindow

/-- What was taken is free no more. -/
theorem freeFrames_of_take (h : p.Sound) (ht : p.takeLowest? = some (f, p')) :
    p'.freeFrames = p.freeFrames \ {f} := by
  obtain ⟨-, -, hlive, -, -⟩ := take_spec h ht
  ext g
  show g ∈ p'.window ∧ p'.isLive g = false ↔ (g ∈ p.window ∧ p.isLive g = false) ∧ ¬g = f
  rw [(SameWindow.take ht).window, hlive]
  by_cases hg : g = f <;> simp [hg]

/-! ## A pool is its window and its live frames -/

theorem marked_eq_isLive (h : p.Sound) (hi : i < p.frames) : p.marked i = p.isLive (p.frameAt i) := by
  simp only [isLive, place?_frameAt h hi]

theorem testBit_words (hi : i < p.words.size) (hj : j < 32) :
    p.words[i].toNat.testBit j = p.marked (i * 32 + j) := by
  have hdiv : (i * 32 + j) / 32 = i := by omega
  have hmod : (i * 32 + j) % 32 = j := by omega
  rw [marked, Field.test_eq_testBit rfl, hdiv, Array.getD_eq_getD_getElem?, Array.getElem?_eq_getElem hi,
    Option.getD_some]
  simp only [bit, hmod]

/-- Nothing else is in the bitmap and the counter. -/
theorem eq_of_isLive (h : p.Sound) (h' : p'.Sound) (hw : p.SameWindow p')
    (hl : ∀ f, p'.isLive f = p.isLive f) : p' = p := by
  have hmarked (k : Nat) (hk : k < p.words.size * 32) : p'.marked k = p.marked k := by
    by_cases hf : k < p.frames
    · have hat : p'.frameAt k = p.frameAt k := by rw [frameAt, frameAt, hw.base]
      rw [marked_eq_isLive h hf, marked_eq_isLive h' (hw.frames ▸ hf), hat, hl]
    · rw [h.tail k (by omega) hk, h'.tail k (by rw [hw.frames]; omega) (by rw [hw.words]; exact hk)]
  have hwords : p'.words = p.words := by
    refine Array.ext hw.words ?_
    intro k hk' hk
    apply Field.eq_of_testBit
    intro j hj
    rw [testBit_words hk' hj, testBit_words hk hj, hmarked _ (by omega)]
  have hplaces : p'.livePlaces = p.livePlaces := by
    ext k
    rw [mem_livePlaces, mem_livePlaces, hw.frames]
    refine and_congr_right fun hk => ?_
    have hcap := h.capacity
    rw [hmarked k (by omega)]
  have hlive : p'.live = p.live := by rw [h'.count, h.count, hplaces]
  obtain ⟨base, frames, live, words⟩ := p
  obtain ⟨base', frames', live', words'⟩ := p'
  obtain rfl := hw.base
  obtain rfl := hw.frames
  obtain rfl := hwords
  obtain rfl := hlive
  rfl

/-- A frame that is taken and given back leaves the pool as it was. -/
theorem release_take (h : p.Sound) (ht : p.takeLowest? = some (f, p')) : p'.release f = .released p := by
  obtain ⟨hdead, hs, hlive, -, -⟩ := take_spec h ht
  obtain ⟨p'', hr, hs'', hlive'', -⟩ := release_spec hs (f := f) (by rw [hlive, if_pos rfl])
  rw [hr, eq_of_isLive h hs'' ((SameWindow.take ht).trans (SameWindow.release hr))]
  intro g
  rw [hlive'', hlive]
  by_cases hg : g = f
  · rw [if_pos hg, hg, hdead]
  · rw [if_neg hg, if_neg hg]

/-- Two frames can be taken from a pool with two free ones. -/
theorem exists_take_two (h : p.Sound) (hf : 2 ≤ p.free) : ∃ f p₁ g p₂, p.takeLowest? = some (f, p₁) ∧
    p₁.takeLowest? = some (g, p₂) := by
  obtain ⟨f, p₁, h₁⟩ := exists_take h (by omega)
  obtain ⟨-, hs₁, -, -, hf₁⟩ := take_spec h h₁
  obtain ⟨g, p₂, h₂⟩ := exists_take hs₁ (by omega)
  exact ⟨f, p₁, g, p₂, h₁, h₂⟩

/-! ## A new pool -/

/-- Bit `j` of word `w` of a new pool is set exactly behind the last frame. -/
theorem test_initialWord (frames w : Nat) (j : Fin 32) :
    (bit j).test (initialWord frames w) = decide (frames ≤ w * 32 + j.val) := by
  have hj := j.isLt
  have hb : wordBits = 32 := rfl
  have hw : w * wordBits = w * 32 := rfl
  simp only [initialWord]
  by_cases h1 : frames ≤ w * wordBits
  · rw [if_pos h1, test_bit_ones, decide_eq_true (by omega)]
  · rw [if_neg h1]
    by_cases h2 : frames - w * wordBits < wordBits
    · have hn : (UInt32.ofNat (frames - w * wordBits)).toNat = frames - w * wordBits := by
        rw [UInt32.toNat_ofNat', Nat.mod_eq_of_lt (by omega)]
      have hones (k : Nat) : Nat.testBit 4294967295 k = decide (k < 32) :=
        Nat.testBit_two_pow_sub_one 32 k
      rw [if_pos h2, Field.test_eq_testBit rfl, UInt32.toNat_shiftLeft, hn,
        Nat.mod_eq_of_lt (show frames - w * wordBits < 32 by omega), Nat.testBit_mod_two_pow,
        Nat.testBit_shiftLeft, UInt32.toNat_ofNat, Nat.mod_eq_of_lt (by decide), hones]
      have hlow : (bit j).low = j.val := rfl
      rw [Bool.eq_iff_iff]
      simp only [Bool.and_eq_true, decide_eq_true_eq]
      omega
    · rw [if_neg h2, decide_eq_false (by omega), Field.test_eq_testBit rfl]
      simp

section Create

variable {wordCount frames : Nat} {base : Frame}

/-- A pool is made if there is a bit for each frame and the frames end within the address space. -/
theorem create_eq_ok_iff : create wordCount base frames = .ok p ↔
    (frames ≤ wordCount * 32 ∧ base.number * 4096 + frames * 4096 ≤ UInt32.size) ∧
      ⟨base, frames, 0, Array.ofFn fun w : Fin wordCount => initialWord frames w⟩ = p := by
  unfold create wordBits
  split
  · simp only [reduceCtorEq, false_iff]; omega
  · split
    · simp only [reduceCtorEq, false_iff]; omega
    · simp only [Except.ok.injEq, iff_and_self]; omega

theorem create_of_fits (hcap : frames ≤ wordCount * wordBits)
    (hwin : base.number * 4096 + frames * 4096 ≤ UInt32.size) : create wordCount base frames =
      .ok ⟨base, frames, 0, Array.ofFn fun w : Fin wordCount => initialWord frames w⟩ :=
  create_eq_ok_iff.2 ⟨⟨hcap, hwin⟩, rfl⟩

variable (h : create wordCount base frames = .ok p)

include h

theorem of_create : p.base = base ∧ p.frames = frames ∧ p.live = 0 := by
  obtain ⟨-, rfl⟩ := create_eq_ok_iff.1 h
  exact ⟨rfl, rfl, rfl⟩

theorem size_words_of_create : p.words.size = wordCount := by
  obtain ⟨-, rfl⟩ := create_eq_ok_iff.1 h
  exact Array.size_ofFn

theorem window_of_create : p.base.number + p.frames ≤ PageSize.small.pageCount := by
  obtain ⟨⟨-, hwin⟩, rfl⟩ := create_eq_ok_iff.1 h
  have hspace : UInt32.size = 4294967296 := rfl
  simp only [PageSize.pageCount]
  omega

/-- In a new bitmap the bits behind the last frame are set, and no others. -/
theorem marked_of_create (hi : i < wordCount * 32) : p.marked i = decide (frames ≤ i) := by
  obtain ⟨-, rfl⟩ := create_eq_ok_iff.1 h
  have hw : i / 32 < wordCount := by omega
  simp only [marked, Array.getD_eq_getD_getElem?]
  rw [Array.getElem?_eq_getElem (by simpa using hw), Option.getD_some, Array.getElem_ofFn,
    test_initialWord]
  simp only [show i / 32 * 32 + i % 32 = i by omega]

theorem sound_of_create : p.Sound := by
  have hsize := size_words_of_create h
  have hmark (i : Nat) := marked_of_create (i := i) h
  obtain ⟨⟨hcap, -⟩, hp⟩ := create_eq_ok_iff.1 h
  have hframes : p.frames = frames := by rw [← hp]
  have hlive : p.live = 0 := by rw [← hp]
  refine ⟨window_of_create h, by omega, ?_, ?_⟩
  · intro i hle hlt
    rw [hmark i (by omega)]
    simpa [hframes] using hle
  · rw [hlive, eq_comm, Finset.card_eq_zero, livePlaces, Finset.filter_eq_empty_iff]
    intro i hi
    have hi : i < p.frames := Finset.mem_range.1 hi
    rw [hmark i (by omega)]
    simpa [hframes] using hi

end Create

end FramePool

end Paging
