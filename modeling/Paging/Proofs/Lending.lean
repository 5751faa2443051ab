import Paging.Pool.Lending
import Paging.Proofs.Pool

/-!
# Frames in the hands of a caller

A caller holds the frames that it took or reserved and has not given back (`Lending.heldAfter`), and
is fair if it gives back only frames that it holds, or frames that are none of the pool's
(`Lending.Fair`). Giving back a frame that is free already is not fair, but harmless: the pool refuses
it (`Lending.Harmless`). A harmless step leaves every live frame live that the caller does not hold
(`step_keeps`): this is all that the paging operations need of a caller with whom they share a pool. A
fair step is not refused either (`step_ne_fault`).
-/

namespace Paging

namespace Lending

/-- The frames that the caller holds after step `p`, if it held `held` before. -/
def heldAfter (l : Lending) (held : List Frame) (p : PoolStep) : List Frame :=
  match p, (l.step p).1 with
  | .take, .ok (.frame _ f) => f :: held
  | .takeMany _, .ok (.frames fs) => fs.map Prod.snd ++ held
  | .reserve pa, .ok (.flag true) => pa.page .small :: held
  | .giveBack n, _ =>
    match l.lent[n]? with
    | some (some f) => held.erase f
    | _ => held
  | .release pa, _ => held.erase (pa.page .small)
  | _, _ => held

/-- The step gives back nothing of the pool's that the caller does not hold. -/
def Fair (l : Lending) (held : List Frame) : PoolStep → Prop
  | .giveBack n => ∀ f, l.lent[n]? = some (some f) → f ∈ held
  | .release pa => pa.page .small ∈ held ∨ l.pool.place? (pa.page .small) = none
  | _ => True

/-- The step gives back no live frame that the caller does not hold. -/
def Harmless (l : Lending) (held : List Frame) : PoolStep → Prop
  | .giveBack n => ∀ f, l.lent[n]? = some (some f) → l.pool.isLive f → f ∈ held
  | .release pa => l.pool.isLive (pa.page .small) → pa.page .small ∈ held
  | _ => True

theorem Fair.harmless {l : Lending} {held : List Frame} {p : PoolStep} (h : l.Fair held p) :
    l.Harmless held p := by
  cases p with
  | giveBack n =>
    intro f hf _
    exact h f hf
  | release pa =>
    intro hl
    refine h.resolve_right ?_
    intro hn
    have hp := FramePool.place?_of_isLive hl
    simp [hn] at hp
  | take | takeMany | reserve | isLive | sameFrame => trivial

end Lending

namespace FramePool

/-- The frames are different and live. -/
structure Owns (p : FramePool) (held : List Frame) : Prop where
  nodup : held.Nodup
  live : ∀ f ∈ held, p.isLive f

/-- `p'` is `p` after the frames `fs`, which were free, became live. -/
structure Takes (p : FramePool) (fs : List Frame) (p' : FramePool) : Prop where
  sound : p'.Sound
  place : ∀ g, p'.place? g = p.place? g
  nodup : fs.Nodup
  dead : ∀ f ∈ fs, p.isLive f = false
  live : ∀ g, p'.isLive g ↔ g ∈ fs ∨ p.isLive g

/-- `p'` is `p` after a caller who held `held` did something, and holds `held'` now. -/
structure Keeps (p : FramePool) (held : List Frame) (p' : FramePool) (held' : List Frame) : Prop where
  sound : p'.Sound
  place : ∀ g, p'.place? g = p.place? g
  owns : p'.Owns held'
  others : ∀ g, p.isLive g → g ∉ held → p'.isLive g ∧ g ∉ held'

variable {p p₁ p' : FramePool} {held : List Frame} {f : Frame} {fs : List Frame}

theorem Takes.nil (h : p.Sound) : p.Takes [] p :=
  ⟨h, fun _ => rfl, List.nodup_nil, fun _ hf => absurd hf List.not_mem_nil, fun g => by simp⟩

/-- One frame, and then others. -/
theorem Takes.cons (hdead : p.isLive f = false)
    (hlive : ∀ g, p₁.isLive g = if g = f then true else p.isLive g)
    (hplace : ∀ g, p₁.place? g = p.place? g) (h : p₁.Takes fs p') : p.Takes (f :: fs) p' where
  sound := h.sound
  place g := (h.place g).trans (hplace g)
  nodup := by
    refine List.nodup_cons.2 ⟨?_, h.nodup⟩
    intro hf
    have hd := h.dead f hf
    rw [hlive, if_pos rfl] at hd; cases hd
  dead g hg := by
    rcases List.mem_cons.1 hg with rfl | hg
    · exact hdead
    · have hd := h.dead g hg
      rw [hlive] at hd
      split at hd
      · cases hd
      · exact hd
  live g := by
    rw [h.live, hlive, List.mem_cons]
    by_cases hg : g = f <;> simp [hg]

namespace Keeps

theorem refl (h : p.Sound) (ho : p.Owns held) : p.Keeps held p held :=
  ⟨h, fun _ => rfl, ho, fun _ hl hn => ⟨hl, hn⟩⟩

theorem of_takes (ho : p.Owns held) (h : p.Takes fs p') : p.Keeps held p' (fs ++ held) where
  sound := h.sound
  place := h.place
  owns := by
    constructor
    · refine List.nodup_append.2 ⟨h.nodup, ho.nodup, ?_⟩
      rintro f hf g hg rfl
      have hd := h.dead f hf
      rw [ho.live f hg] at hd; cases hd
    · intro f hf
      rcases List.mem_append.1 hf with hf | hf
      · exact (h.live f).2 (Or.inl hf)
      · exact (h.live f).2 (Or.inr (ho.live f hf))
  others g hl hn := by
    refine ⟨(h.live g).2 (Or.inr hl), ?_⟩
    intro hg
    rcases List.mem_append.1 hg with hg | hg
    · rw [h.dead g hg] at hl; cases hl
    · exact hn hg

theorem of_release (ho : p.Owns held) (hf : f ∈ held) (hs : p'.Sound)
    (hlive : ∀ g, p'.isLive g = if g = f then false else p.isLive g)
    (hplace : ∀ g, p'.place? g = p.place? g) : p.Keeps held p' (held.erase f) where
  sound := hs
  place := hplace
  owns := by
    refine ⟨ho.nodup.erase f, ?_⟩
    intro g hg
    obtain ⟨hne, hg⟩ := (ho.nodup.mem_erase_iff).1 hg
    rw [hlive, if_neg hne]; exact ho.live g hg
  others g hl hn := by
    have hne : g ≠ f := by rintro rfl; exact hn hf
    constructor
    · rw [hlive, if_neg hne]; exact hl
    · intro hg
      exact hn (List.mem_of_mem_erase hg)

end Keeps

end FramePool

namespace Lending

open FramePool

variable {l : Lending} {held : List Frame} {f : Frame}

/-- The frames of a borrowing of many come after those that were borrowed before. -/
theorem takeMany_takes (n : Nat) : ∀ (l : Lending) (taken : List (Nat × Frame)), l.pool.Sound →
    ∃ ts, (l.takeMany taken n).1 = taken.reverse ++ ts ∧
      l.pool.Takes (ts.map Prod.snd) (l.takeMany taken n).2.pool := by
  induction n with
  | zero => intro l taken h; exact ⟨[], by simp [takeMany], .nil h⟩
  | succ n ih =>
    intro l taken h
    unfold takeMany take
    cases ht : l.pool.takeLowest? with
    | none => exact ⟨[], by simp, .nil h⟩
    | some fp =>
      obtain ⟨hdead, hs, hlive, hplace, -⟩ := take_spec h ht
      obtain ⟨ts, hts, htakes⟩ := ih
        ⟨fp.2, l.lent.push (some fp.1), l.log.add (.frameTaken fp.1)⟩ ((l.lent.size, fp.1) :: taken) hs
      exact ⟨(l.lent.size, fp.1) :: ts, by simp [hts], .cons hdead hlive hplace htakes⟩

/-- A frame that is not live is foreign or refused, and the pool stays as it is. -/
theorem release_of_not_isLive (hf : l.pool.isLive f = false) : (l.release f).2.pool = l.pool := by
  unfold release FramePool.release
  unfold FramePool.isLive at hf
  cases hp : l.pool.place? f with
  | none => rfl
  | some i =>
    rw [hp] at hf
    simp only at hf
    simp only [hf]
    rfl

/-- Giving back a frame that the caller holds, or one that is not live. -/
theorem release_keeps (h : l.pool.Sound) (ho : l.pool.Owns held) (hf : l.pool.isLive f → f ∈ held) :
    l.pool.Keeps held (l.release f).2.pool (held.erase f) := by
  by_cases hmem : f ∈ held
  · obtain ⟨p', hr, hs, hlive, hplace⟩ := release_spec h (ho.live f hmem)
    simp only [release, hr]
    exact .of_release ho hmem hs hlive hplace
  · have hdead : l.pool.isLive f = false := by
      cases hl : l.pool.isLive f with
      | false => rfl
      | true => exact absurd (hf hl) hmem
    rw [release_of_not_isLive hdead, List.erase_of_not_mem hmem]
    exact .refl h ho

theorem step_keeps (h : l.pool.Sound) (ho : l.pool.Owns held) {p : PoolStep}
    (hf : l.Harmless held p) : l.pool.Keeps held (l.step p).2.pool (l.heldAfter held p) := by
  cases p with
  | take =>
    simp only [heldAfter, step, take]
    cases ht : l.pool.takeLowest? with
    | none => exact .refl h ho
    | some fp =>
      obtain ⟨hdead, hs, hlive, hplace, -⟩ := take_spec h ht
      exact .of_takes ho (.cons hdead hlive hplace (.nil hs))
  | takeMany n =>
    obtain ⟨ts, hts, ht⟩ := takeMany_takes n l [] h
    simp only [heldAfter, step, hts]
    exact .of_takes ho ht
  | giveBack n =>
    simp only [heldAfter, step]
    cases hn : l.lent[n]? with
    | none => exact .refl h ho
    | some o =>
      cases o with
      | none => exact .refl h ho
      | some f =>
        exact release_keeps (l := { l with lent := l.lent.setIfInBounds n none }) h ho (hf f hn)
  | release pa => exact release_keeps h ho hf
  | reserve pa =>
    simp only [heldAfter, step]
    cases hr : l.pool.reserve? (pa.page .small) with
    | none => exact .refl h ho
    | some p' =>
      obtain ⟨hdead, hs, hlive, hplace⟩ := reserve_spec h hr
      exact .of_takes ho (.cons hdead hlive hplace (.nil hs))
  | isLive pa => exact .refl h ho
  | sameFrame a b => exact .refl h ho

/-! ## What a step answers -/

theorem release_ne_fault (h : l.pool.Sound) (ho : l.pool.Owns held)
    (hf : f ∈ held ∨ l.pool.place? f = none) (e : Fault) : (l.release f).1 ≠ .error (.fault e) := by
  rcases hf with hf | hf
  · obtain ⟨p', hr, -⟩ := release_spec h (ho.live f hf)
    simp [release, hr]
  · have hr : l.pool.release f = .foreign := by simp only [FramePool.release, hf]
    simp [release, hr]

/-- A fair step gives no frame back twice. -/
theorem step_ne_fault (h : l.pool.Sound) (ho : l.pool.Owns held) {p : PoolStep} (hf : l.Fair held p)
    (e : Fault) : (l.step p).1 ≠ .error (.fault e) := by
  cases p with
  | take =>
    simp only [step]
    split <;> simp
  | giveBack n =>
    simp only [step]
    cases hn : l.lent[n]? with
    | none => simp
    | some o =>
      cases o with
      | none => simp
      | some f =>
        exact release_ne_fault (l := { l with lent := l.lent.setIfInBounds n none }) h ho
          (Or.inl (hf f hn)) e
  | release pa => exact release_ne_fault h ho hf e
  | reserve pa =>
    simp only [step]
    split <;> simp
  | takeMany | isLive | sameFrame => simp [step]

/-! ## The log does not matter -/

/-- The same pool and borrowed frames, whatever was logged. -/
structure SameFrames (l l' : Lending) : Prop where
  pool : l'.pool = l.pool
  lent : l'.lent = l.lent

namespace SameFrames

variable {l' : Lending}

theorem take (h : l.SameFrames l') : l'.take.1 = l.take.1 ∧ l.take.2.SameFrames l'.take.2 := by
  unfold Lending.take
  rw [h.pool, h.lent]
  cases l.pool.takeLowest? with
  | none => exact ⟨rfl, h⟩
  | some fp => exact ⟨rfl, rfl, rfl⟩

theorem takeMany (n : Nat) : ∀ {l l' : Lending}, l.SameFrames l' → ∀ taken : List (Nat × Frame),
    (l'.takeMany taken n).1 = (l.takeMany taken n).1 ∧
      (l.takeMany taken n).2.SameFrames (l'.takeMany taken n).2 := by
  induction n with
  | zero => intro l l' h taken; exact ⟨rfl, h⟩
  | succ n ih =>
    intro l l' h taken
    obtain ⟨hfirst, hrest⟩ := h.take
    unfold Lending.takeMany
    generalize l.take = r at hfirst hrest ⊢
    generalize l'.take = r' at hfirst hrest ⊢
    obtain ⟨a, l₁⟩ := r
    obtain ⟨a', l₁'⟩ := r'
    obtain rfl : a' = a := hfirst
    cases a' with
    | none => exact ⟨rfl, hrest⟩
    | some t => exact ih hrest (t :: taken)

theorem release (h : l.SameFrames l') (f : Frame) :
    (l'.release f).1 = (l.release f).1 ∧ (l.release f).2.SameFrames (l'.release f).2 := by
  unfold Lending.release
  rw [h.pool]
  cases l.pool.release f with
  | twice => exact ⟨rfl, h⟩
  | foreign => exact ⟨rfl, rfl, h.lent⟩
  | released p => exact ⟨rfl, rfl, h.lent⟩

/-- The log is written and never read. -/
theorem step (h : l.SameFrames l') (p : PoolStep) :
    (l'.step p).1 = (l.step p).1 ∧ (l.step p).2.SameFrames (l'.step p).2 := by
  cases p with
  | take =>
    obtain ⟨hfirst, hrest⟩ := h.take
    unfold Lending.step
    generalize l.take = r at hfirst hrest ⊢
    generalize l'.take = r' at hfirst hrest ⊢
    obtain ⟨a, l₁⟩ := r
    obtain ⟨a', l₁'⟩ := r'
    obtain rfl : a' = a := hfirst
    cases a' with
    | none => exact ⟨rfl, hrest⟩
    | some t => exact ⟨rfl, hrest⟩
  | takeMany n =>
    obtain ⟨hfirst, hrest⟩ := takeMany n h []
    refine ⟨?_, hrest⟩
    simp only [Lending.step, hfirst]
  | giveBack n =>
    simp only [Lending.step, h.lent]
    cases l.lent[n]? with
    | none => exact ⟨rfl, h⟩
    | some o =>
      cases o with
      | none => exact ⟨rfl, h⟩
      | some f =>
        have h' : SameFrames { l with lent := l.lent.setIfInBounds n none }
          { l' with lent := l.lent.setIfInBounds n none } := ⟨h.pool, rfl⟩
        exact h'.release f
  | release pa => exact h.release _
  | reserve pa =>
    simp only [Lending.step, h.pool]
    cases l.pool.reserve? (pa.page .small) with
    | none => exact ⟨rfl, h⟩
    | some p' => exact ⟨rfl, rfl, h.lent⟩
  | isLive pa =>
    refine ⟨?_, h⟩
    simp only [Lending.step, h.pool]
  | sameFrame a b => exact ⟨rfl, h⟩

end SameFrames

/-- The frames in the caller's hands do not depend on the log either. -/
theorem SameFrames.heldAfter {l' : Lending} (h : l.SameFrames l') (held : List Frame) (p : PoolStep) :
    l'.heldAfter held p = l.heldAfter held p := by
  unfold Lending.heldAfter
  rw [(h.step p).1, h.lent]

end Lending

end Paging
