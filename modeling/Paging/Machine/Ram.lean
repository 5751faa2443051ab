import Paging.Table.Basic

/-!
# Physical memory

Memory is a run of frames from `base` on; an access outside of it finds nothing. Words are addressed
by their frame and their place in it. The four laws at the end say that a write is seen at its own
place and nowhere else.
-/

namespace Paging

structure Ram where
  base : Frame
  frames : Array FrameWords
  deriving DecidableEq

namespace Ram

/-- What memory holds before anything is written. -/
def untouched : UInt32 := 0xA5A5A5A5

/-- `count` frames of untouched memory. -/
def fresh (base : Frame) (count : Nat) : Ram :=
  ⟨base, Array.replicate count (Vector.replicate 1024 untouched)⟩

/-- The contents of frame `f`, if it is memory. -/
def frame? (r : Ram) (f : Frame) : Option FrameWords :=
  if r.base.number ≤ f.number then r.frames[f.number - r.base.number]? else none

/-- Word `i` of frame `f`, if it is memory. -/
def word? (r : Ram) (f : Frame) (i : Fin 1024) : Option UInt32 := (r.frame? f).map fun ws => ws[i]

/-- Replaces the contents of a frame. -/
def putFrame (r : Ram) (f : Frame) (ws : FrameWords) : Ram :=
  if r.base.number ≤ f.number then
    { r with frames := r.frames.setIfInBounds (f.number - r.base.number) ws }
  else r

/-- Replaces one word of a frame. -/
def putWord (r : Ram) (f : Frame) (i : Fin 1024) (w : UInt32) : Ram :=
  if r.base.number ≤ f.number then
    { r with frames := r.frames.modify (f.number - r.base.number) fun ws => ws.set i w }
  else r

/-- Whether frame `f` is memory. -/
def Holds (r : Ram) (f : Frame) : Prop :=
  r.base.number ≤ f.number ∧ f.number - r.base.number < r.frames.size

instance (r : Ram) (f : Frame) : Decidable (r.Holds f) := inferInstanceAs (Decidable (_ ∧ _))

/-- Every word that `after` holds and `before` does not, with its address, in ascending order. -/
def changes (before after : Ram) : List (PhysicalAddress × UInt32) :=
  (List.range after.frames.size).flatMap fun n =>
    let f : Frame := Page.ofNumber (after.base.number + n)
    match before.frames[n]?, after.frames[n]? with
    | some old, some new =>
      (List.finRange 1024).filterMap fun i =>
        if old[i] = new[i] then none else some (f.wordAddress i, new[i])
    | _, _ => []

/-! ## Reading back what was written -/

theorem frame?_isSome_iff {r : Ram} {f : Frame} : (r.frame? f).isSome ↔ r.Holds f := by
  unfold frame? Holds
  by_cases h : r.base.number ≤ f.number <;> simp [h]

theorem frame?_putFrame {r : Ram} {f : Frame} (h : r.Holds f) (ws : FrameWords) (g : Frame) :
    (r.putFrame f ws).frame? g = if g = f then some ws else r.frame? g := by
  obtain ⟨hb, hs⟩ := h
  by_cases hg : g = f
  · subst hg; simp [frame?, putFrame, hb, hs]
  · have hne : g.number ≠ f.number := fun e => hg (Page.ext e)
    simp only [frame?, putFrame, hb, hg, ↓reduceIte]
    by_cases hgb : r.base.number ≤ g.number
    · rw [if_pos hgb, if_pos hgb, Array.getElem?_setIfInBounds_ne (by omega)]
    · rw [if_neg hgb, if_neg hgb]

theorem frame?_putWord {r : Ram} {f : Frame} (h : r.Holds f) (i : Fin 1024) (w : UInt32) (g : Frame) :
    (r.putWord f i w).frame? g =
      if g = f then (r.frame? f).map fun ws => ws.set i w else r.frame? g := by
  obtain ⟨hb, hs⟩ := h
  by_cases hg : g = f
  · subst hg; simp [frame?, putWord, hb, hs, Array.getElem_modify]
  · have hne : g.number ≠ f.number := fun e => hg (Page.ext e)
    simp only [frame?, putWord, hb, hg, ↓reduceIte]
    by_cases hgb : r.base.number ≤ g.number
    · rw [if_pos hgb, if_pos hgb, Array.getElem?_modify, if_neg (by omega)]
    · rw [if_neg hgb, if_neg hgb]

theorem word?_putWord {r : Ram} {f : Frame} (h : r.Holds f) (i : Fin 1024) (w : UInt32)
    (g : Frame) (j : Fin 1024) :
    (r.putWord f i w).word? g j = if g = f ∧ j = i then some w else r.word? g j := by
  unfold word?
  rw [frame?_putWord h]
  by_cases hg : g = f
  · subst hg
    obtain ⟨ws, hws⟩ := Option.isSome_iff_exists.1 (frame?_isSome_iff.2 h)
    by_cases hj : j = i
    · subst hj; simp [hws]
    · have hne : i.val ≠ j.val := fun e => hj (Fin.ext e.symm)
      simp [hws, hj, Vector.getElem_set_ne _ _ hne]
  · simp [hg]

end Ram

end Paging
