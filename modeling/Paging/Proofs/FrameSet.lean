import Mathlib.Data.Finset.Card
import Mathlib.Order.Bounds.Defs
import Paging.Proofs.Lending

/-!
# The pool is a finite set

A `FrameSet` is what is left of a lending when its bitmap is forgotten: the set of the live frames, and
the borrowed ones by number. `FrameSet.Steps` says what each step has to answer and which set it has to
leave, without a word about bits: the lowest frame that is not in the set is handed out, nothing is
handed out when the set is the whole window, a frame outside of the window is never touched, and giving
a frame back twice is refused.

`refines_run` is the contract: from a new pool on, the answers of any steps are those of the set, which
starts empty, and the pool shows the set at every moment (`Exhibits`).
-/

namespace Paging

/-- The live frames, and the borrowed ones by number. -/
structure FrameSet where
  live : Finset Frame := ∅
  lent : Array (Option Frame) := #[]

namespace FrameSet

variable (window : Set Frame)

/-- One frame is handed out, with the next number; or none, when all are live. -/
inductive Takes (s : FrameSet) : Option (Nat × Frame) → FrameSet → Prop
  | exhausted (h : (s.live : Set Frame) = window) : Takes s none s
  | lowest {f : Frame} (h : IsLeast (window \ s.live) f) :
    Takes s (some (s.lent.size, f)) ⟨insert f s.live, s.lent.push (some f)⟩

/-- Up to `n` frames are handed out one after the other. -/
inductive TakesMany : FrameSet → Nat → List (Nat × Frame) → FrameSet → Prop
  | done {s : FrameSet} : TakesMany s 0 [] s
  | exhausted {s s' : FrameSet} {n : Nat} (h : s.Takes window none s') : TakesMany s (n + 1) [] s'
  | more {s s' s'' : FrameSet} {n : Nat} {t : Nat × Frame} {ts : List (Nat × Frame)}
    (h : s.Takes window (some t) s') (hs : TakesMany s' n ts s'') : TakesMany s (n + 1) (t :: ts) s''

/-- Frame `f` is given back. -/
inductive Releases (s : FrameSet) (f : Frame) : Except StepError PoolAnswer → FrameSet → Prop
  | foreign (h : f ∉ window) : Releases s f (.ok .nothing) s
  | freed (h : f ∈ s.live) : Releases s f (.ok .nothing) { s with live := s.live.erase f }
  | twice (h : f ∈ window) (hl : f ∉ s.live) : Releases s f (.error (.fault (.doubleFree f))) s

inductive Steps (s : FrameSet) : PoolStep → Except StepError PoolAnswer → FrameSet → Prop
  | nothing {s' : FrameSet} (h : s.Takes window none s') : Steps s .take (.ok .nothing) s'
  | take {s' : FrameSet} {n : Nat} {f : Frame} (h : s.Takes window (some (n, f)) s') :
    Steps s .take (.ok (.frame n f)) s'
  | takeMany {s' : FrameSet} {n : Nat} {ts : List (Nat × Frame)} (h : TakesMany window s n ts s') :
    Steps s (.takeMany n) (.ok (.frames ts)) s'
  | giveBack {s' : FrameSet} {n : Nat} {f : Frame} {a : Except StepError PoolAnswer}
    (hn : s.lent[n]? = some (some f))
    (h : { s with lent := s.lent.setIfInBounds n none }.Releases window f a s') :
    Steps s (.giveBack n) a s'
  | spent {n : Nat} (hn : ∀ f, s.lent[n]? ≠ some (some f)) :
    Steps s (.giveBack n) (.error (.missing .lentFrame)) s
  | release {s' : FrameSet} {pa : PhysicalAddress} {a : Except StepError PoolAnswer}
    (h : s.Releases window (pa.page .small) a s') : Steps s (.release pa) a s'
  | reserve {pa : PhysicalAddress} (h : pa.page .small ∈ window \ s.live) :
    Steps s (.reserve pa) (.ok (.flag true)) { s with live := insert (pa.page .small) s.live }
  | declined {pa : PhysicalAddress} (h : pa.page .small ∉ window \ s.live) :
    Steps s (.reserve pa) (.ok (.flag false)) s
  | isLive {pa : PhysicalAddress} :
    Steps s (.isLive pa) (.ok (.flag (decide (pa.page .small ∈ s.live)))) s
  | sameFrame {a b : PhysicalAddress} :
    Steps s (.sameFrame a b) (.ok (.flag (a.page .small == b.page .small))) s

/-- The steps of a list and their answers, one after the other. -/
inductive Run : FrameSet → List PoolStep → List (Except StepError PoolAnswer) → FrameSet → Prop
  | nil {s : FrameSet} : Run s [] [] s
  | cons {s s' s'' : FrameSet} {p : PoolStep} {ps : List PoolStep} {a : Except StepError PoolAnswer}
    {as : List (Except StepError PoolAnswer)} (h : s.Steps window p a s') (hs : Run s' ps as s'') :
    Run s (p :: ps) (a :: as) s''

end FrameSet

namespace Lending

open FramePool

/-- The lending after the steps of a list. -/
def run (l : Lending) : List PoolStep → Lending
  | [] => l
  | p :: ps => (l.step p).2.run ps

/-- Step `p` puts `f` into use. -/
inductive Acquires (l : Lending) (f : Frame) : PoolStep → Prop
  | take {n : Nat} (h : (l.step .take).1 = .ok (.frame n f)) : Acquires l f .take
  | takeMany {n : Nat} {ts : List (Nat × Frame)} (h : (l.step (.takeMany n)).1 = .ok (.frames ts))
    (hf : f ∈ ts.map Prod.snd) : Acquires l f (.takeMany n)
  | reserve {pa : PhysicalAddress} (hf : pa.page .small = f)
    (h : (l.step (.reserve pa)).1 = .ok (.flag true)) : Acquires l f (.reserve pa)

/-- Step `p` gives `f` back. -/
inductive Frees (l : Lending) (f : Frame) : PoolStep → Prop
  | giveBack {n : Nat} (hf : l.lent[n]? = some (some f)) (h : (l.step (.giveBack n)).1 = .ok .nothing) :
    Frees l f (.giveBack n)
  | release {pa : PhysicalAddress} (hf : pa.page .small = f)
    (h : (l.step (.release pa)).1 = .ok .nothing) : Frees l f (.release pa)

/-- What a lending from a pool of `frames` frames shows of the set of its live frames. -/
structure Exhibits (l : Lending) (window : Set Frame) (frames : Nat) (s : FrameSet) : Prop where
  subset : ↑s.live ⊆ window
  isLive : ∀ f, l.pool.isLive f ↔ f ∈ s.live
  live : l.pool.live = s.live.card
  free : s.live.card + l.pool.free = frames
  /-- Only a frame of the window that is not live is put into use. -/
  acquires : ∀ p f, l.Acquires f p → f ∈ window \ s.live
  /-- If a frame is put into use twice, then it was given back in between. -/
  again : ∀ p ps q f, l.Acquires f p → (l.run (p :: ps)).Acquires f q →
    ∃ before r after, ps = before ++ r :: after ∧ (l.run (p :: before)).Frees f r
  /-- No free frame is lost: who asks for all of them gets all of them. -/
  rest : ∀ n, l.pool.free ≤ n → ∃ ts, (l.step (.takeMany n)).1 = .ok (.frames ts) ∧
    (ts.map Prod.snd).Nodup ∧ ∀ f, f ∈ ts.map Prod.snd ↔ f ∈ window \ s.live

/-- The pool of the lending is sound; it has the window of `p`, and the live frames of `s`. -/
structure Represents (l : Lending) (p : FramePool) (s : FrameSet) : Prop where
  sound : l.pool.Sound
  same : p.SameWindow l.pool
  live : ∀ f, l.pool.isLive f ↔ f ∈ s.live
  lent : l.lent = s.lent

variable {l : Lending} {p : FramePool} {s : FrameSet} {f : Frame}

namespace Represents

theorem window (h : l.Represents p s) : l.pool.window = p.window := h.same.window

theorem freeFrames (h : l.Represents p s) : l.pool.freeFrames = p.window \ s.live := by
  ext g
  show g ∈ l.pool.window ∧ l.pool.isLive g = false ↔ g ∈ p.window ∧ g ∉ s.live
  rw [h.window, ← h.live g, Bool.not_eq_true]

theorem subset (h : l.Represents p s) : ↑s.live ⊆ p.window := by
  intro g hg
  rw [← h.window]
  exact mem_window_of_isLive ((h.live g).2 hg)

/-- The lowest frame becomes live, or a reserved one. -/
theorem insert (h : l.Represents p s) {p' : FramePool} (hs : p'.Sound) (hw : l.pool.SameWindow p')
    (hlive : ∀ g, p'.isLive g = if g = f then true else l.pool.isLive g)
    (lent : Array (Option Frame)) (log : Log) :
    Represents ⟨p', lent, log⟩ p ⟨insert f s.live, lent⟩ where
  sound := hs
  same := h.same.trans hw
  live g := by
    rw [hlive, Finset.mem_insert, ← h.live g]
    by_cases hg : g = f <;> simp [hg]
  lent := rfl

theorem erase (h : l.Represents p s) {p' : FramePool} (hs : p'.Sound) (hw : l.pool.SameWindow p')
    (hlive : ∀ g, p'.isLive g = if g = f then false else l.pool.isLive g) (log : Log) :
    Represents ⟨p', l.lent, log⟩ p ⟨s.live.erase f, s.lent⟩ where
  sound := hs
  same := h.same.trans hw
  live g := by
    rw [hlive, Finset.mem_erase, ← h.live g]
    by_cases hg : g = f <;> simp [hg]
  lent := h.lent

/-! ## One step -/

theorem take (h : l.Represents p s) : ∃ s', s.Takes p.window l.take.1 s' ∧ l.take.2.Represents p s' := by
  unfold Lending.take
  cases ht : l.pool.takeLowest? with
  | none =>
    refine ⟨s, .exhausted ?_, h⟩
    apply Set.Subset.antisymm h.subset
    intro g hg
    rw [← h.window] at hg
    exact (h.live g).1 (isLive_of_free_eq_zero h.sound ((takeLowest?_eq_none_iff h.sound).1 ht) hg)
  | some fp =>
    obtain ⟨f, p'⟩ := fp
    obtain ⟨-, hs, hlive, -, -⟩ := take_spec h.sound ht
    have hleast := take_isLeast h.sound ht
    rw [h.freeFrames] at hleast
    refine ⟨⟨Insert.insert f s.live, l.lent.push (some f)⟩, ?_, ?_⟩
    · rw [h.lent]
      exact .lowest hleast
    · exact h.insert hs (.take ht) hlive _ _

theorem takeMany (n : Nat) : ∀ {l : Lending} {s : FrameSet}, l.Represents p s →
    ∀ taken : List (Nat × Frame), ∃ ts s', (l.takeMany taken n).1 = taken.reverse ++ ts ∧
      FrameSet.TakesMany p.window s n ts s' ∧ (l.takeMany taken n).2.Represents p s' := by
  induction n with
  | zero =>
    intro l s h taken
    exact ⟨[], s, by simp [Lending.takeMany], .done, h⟩
  | succ n ih =>
    intro l s h taken
    obtain ⟨s', htakes, h'⟩ := h.take
    unfold Lending.takeMany
    generalize l.take = r at htakes h' ⊢
    obtain ⟨a, l'⟩ := r
    cases a with
    | none => exact ⟨[], s', by simp, .exhausted htakes, h'⟩
    | some t =>
      obtain ⟨ts, s'', hts, hmany, h''⟩ := ih h' (t :: taken)
      exact ⟨t :: ts, s'', by simp [hts], .more htakes hmany, h''⟩

theorem release (h : l.Represents p s) (f : Frame) :
    ∃ s', s.Releases p.window f (l.release f).1 s' ∧ (l.release f).2.Represents p s' := by
  by_cases hl : l.pool.isLive f
  · obtain ⟨p', hr, hs, hlive, -⟩ := release_spec h.sound hl
    simp only [Lending.release, hr]
    exact ⟨_, .freed ((h.live f).1 hl), h.erase hs (.release hr) hlive _⟩
  · have hdead : f ∉ s.live := by rwa [← h.live f]
    unfold Lending.release FramePool.release
    cases hp : l.pool.place? f with
    | none =>
      refine ⟨s, .foreign ?_, h.sound, h.same, h.live, h.lent⟩
      rw [← h.window, mem_window_iff, hp]
      simp
    | some i =>
      have hm : l.pool.marked i = false := by simpa [FramePool.isLive, hp] using hl
      have hwin : f ∈ p.window := by rw [← h.window, mem_window_iff, hp]; rfl
      simp only [hm]
      exact ⟨s, .twice hwin hdead, h⟩

theorem reserve? (h : l.Represents p s) (f : Frame) : (l.pool.reserve? f).isSome ↔ f ∈ p.window \ s.live := by
  rw [← h.freeFrames]
  show _ ↔ f ∈ l.pool.window ∧ l.pool.isLive f = false
  rw [mem_window_iff]
  unfold FramePool.reserve? FramePool.isLive
  cases l.pool.place? f with
  | none => simp
  | some i => cases hm : l.pool.marked i <;> simp [hm]

/-- Every step answers what the set answers, and leaves what the set leaves. -/
theorem step (h : l.Represents p s) (q : PoolStep) :
    ∃ s', s.Steps p.window q (l.step q).1 s' ∧ (l.step q).2.Represents p s' := by
  cases q with
  | take =>
    obtain ⟨s', htakes, h'⟩ := h.take
    unfold Lending.step
    generalize l.take = r at htakes h' ⊢
    obtain ⟨a, l'⟩ := r
    cases a with
    | none => exact ⟨s', .nothing htakes, h'⟩
    | some t => exact ⟨s', .take htakes, h'⟩
  | takeMany n =>
    obtain ⟨ts, s', hts, hmany, h'⟩ := h.takeMany n []
    refine ⟨s', ?_, h'⟩
    simp only [Lending.step, hts]
    exact .takeMany hmany
  | giveBack n =>
    unfold Lending.step
    simp only [h.lent]
    cases hn : s.lent[n]? with
    | none => exact ⟨s, .spent (by simp [hn]), h⟩
    | some o =>
      cases o with
      | none => exact ⟨s, .spent (by simp [hn]), h⟩
      | some f =>
        have hspent : Represents { l with lent := s.lent.setIfInBounds n none } p
            { s with lent := s.lent.setIfInBounds n none } := ⟨h.sound, h.same, h.live, rfl⟩
        obtain ⟨s', hr, h'⟩ := hspent.release f
        exact ⟨s', .giveBack hn hr, h'⟩
  | release pa =>
    obtain ⟨s', hr, h'⟩ := h.release (pa.page .small)
    exact ⟨s', .release hr, h'⟩
  | reserve pa =>
    have hiff := h.reserve? (pa.page .small)
    simp only [Lending.step]
    cases hr : l.pool.reserve? (pa.page .small) with
    | none =>
      rw [hr] at hiff
      exact ⟨s, .declined (by simpa using hiff), h⟩
    | some p' =>
      rw [hr] at hiff
      obtain ⟨-, hs, hlive, -⟩ := reserve_spec h.sound hr
      refine ⟨_, .reserve (hiff.1 rfl), ?_⟩
      have h' := h.insert hs (.reserve hr) hlive l.lent (l.log.add (.frameReserved (pa.page .small)))
      rw [h.lent] at h' ⊢
      exact h'
  | isLive pa =>
    have hflag : l.pool.isLive (pa.page .small) = decide (pa.page .small ∈ s.live) := by
      rw [Bool.eq_iff_iff, h.live, decide_eq_true_iff]
    refine ⟨s, ?_, h⟩
    simp only [Lending.step, hflag]
    exact .isLive
  | sameFrame a b => exact ⟨s, .sameFrame, h⟩

/-! ## Any steps -/

theorem run (qs : List PoolStep) : ∀ {l : Lending} {s : FrameSet}, l.Represents p s →
    ∃ s', FrameSet.Run p.window s qs ((l.reports qs).map PoolReport.answer) s' ∧
      (l.run qs).Represents p s' := by
  induction qs with
  | nil =>
    intro l s h
    exact ⟨s, .nil, h⟩
  | cons q qs ih =>
    intro l s h
    obtain ⟨s', hstep, h'⟩ := h.step q
    obtain ⟨s'', hrun, h''⟩ := ih h'
    exact ⟨s'', .cons hstep hrun, h''⟩

/-! ## What follows for the frames -/

theorem card (h : l.Represents p s) : s.live.card = l.pool.live := by
  rw [h.sound.count]
  symm
  refine Finset.card_bij (fun i _ => l.pool.frameAt i) ?_ ?_ ?_
  · intro i hi
    obtain ⟨hlt, hm⟩ := mem_livePlaces.1 hi
    rw [← h.live, ← marked_eq_isLive h.sound hlt]
    exact hm
  · intro i hi j hj hij
    have hpi := place?_frameAt h.sound (mem_livePlaces.1 hi).1
    have hpj := place?_frameAt h.sound (mem_livePlaces.1 hj).1
    rw [hij, hpj] at hpi
    exact (Option.some.inj hpi).symm
  · intro g hg
    obtain ⟨i, hi, hm⟩ := FramePool.isLive_iff.1 ((h.live g).2 hg)
    have hlt := (place?_eq_some_iff.1 hi).2
    exact ⟨i, mem_livePlaces.2 ⟨hlt, hm⟩, eq_of_place? (place?_frameAt h.sound hlt) hi⟩

end Represents

end Lending

namespace FrameSet

variable {W : Set Frame} {s s' : FrameSet} {f : Frame}

/-- What many takes hand out. -/
theorem TakesMany.hands {n : Nat} {ts : List (Nat × Frame)} (h : TakesMany W s n ts s') :
    (ts.map Prod.snd).Nodup ∧ (∀ f ∈ ts.map Prod.snd, f ∈ W ∧ f ∉ s.live) ∧
      (∀ f, f ∈ s'.live ↔ f ∈ ts.map Prod.snd ∨ f ∈ s.live) ∧ (ts.length = n ∨ ↑s'.live = W) := by
  induction h with
  | done => simp
  | exhausted h =>
    cases h with
    | exhausted h => simp [h]
  | @more s s' s'' n t ts h hs ih =>
    obtain ⟨hnodup, hfree, hlive, hlen⟩ := ih
    cases h with
    | @lowest f h =>
      refine ⟨?_, ?_, ?_, ?_⟩
      · simp only [List.map_cons, List.nodup_cons]
        refine ⟨fun hf => ?_, hnodup⟩
        exact (hfree f hf).2 (Finset.mem_insert_self f s.live)
      · intro g hg
        rcases List.mem_cons.1 hg with rfl | hg
        · exact h.1
        · obtain ⟨hw, hn⟩ := hfree g hg
          exact ⟨hw, fun hl => hn (Finset.mem_insert_of_mem hl)⟩
      · intro g
        rw [hlive, Finset.mem_insert, List.map_cons, List.mem_cons]
        tauto
      · simpa using hlen

end FrameSet

namespace Lending

open FramePool

variable {l : Lending} {p : FramePool} {s : FrameSet} {f : Frame} {q : PoolStep}

namespace Represents

/-- A frame that is put into use is one of the window that was not live; now it is. -/
theorem of_acquires (h : l.Represents p s) (hf : l.Acquires f q) :
    (f ∈ p.window ∧ f ∉ s.live) ∧ (l.step q).2.pool.isLive f := by
  obtain ⟨s', hstep, h'⟩ := h.step q
  rw [h'.live f]
  cases hf with
  | take ha =>
    rw [ha] at hstep
    cases hstep with
    | take ht =>
      cases ht with
      | lowest hleast => exact ⟨hleast.1, Finset.mem_insert_self f s.live⟩
  | takeMany ha hmem =>
    rw [ha] at hstep
    cases hstep with
    | takeMany hmany =>
      obtain ⟨-, hfree, hlive, -⟩ := hmany.hands
      exact ⟨hfree f hmem, (hlive f).2 (Or.inl hmem)⟩
  | reserve hpage ha =>
    subst hpage
    rw [ha] at hstep
    cases hstep with
    | reserve hfree => exact ⟨hfree, Finset.mem_insert_self _ s.live⟩

/-- A live frame stays live until it is given back. -/
theorem stays (h : l.Represents p s) (hl : l.pool.isLive f) (hf : ¬l.Frees f q) :
    (l.step q).2.pool.isLive f := by
  obtain ⟨s', hstep, h'⟩ := h.step q
  rw [h.live] at hl
  rw [h'.live]
  generalize ha : (l.step q).1 = a at hstep
  have hkeep {t t' : FrameSet} {g : Frame} (hr : t.Releases p.window g a t') (ht : f ∈ t.live)
      (hne : a = .ok .nothing → g ≠ f) : f ∈ t'.live := by
    cases hr with
    | foreign | twice => exact ht
    | freed => exact Finset.mem_erase.2 ⟨(hne rfl).symm, ht⟩
  cases hstep with
  | nothing ht =>
    cases ht with
    | exhausted => exact hl
  | take ht =>
    cases ht with
    | lowest => exact Finset.mem_insert_of_mem hl
  | takeMany hmany =>
    obtain ⟨-, -, hlive, -⟩ := hmany.hands
    exact (hlive f).2 (Or.inr hl)
  | giveBack hn hr =>
    refine hkeep hr hl ?_
    rintro rfl rfl
    rw [← h.lent] at hn
    exact hf (.giveBack hn ha)
  | release hr =>
    refine hkeep hr hl ?_
    rintro rfl rfl
    exact hf (.release rfl ha)
  | reserve => exact Finset.mem_insert_of_mem hl
  | spent | declined | isLive | sameFrame => exact hl

/-- After any steps, a live frame is live or was given back in one of them. -/
theorem freed_or_isLive (qs : List PoolStep) : ∀ {l : Lending} {s : FrameSet}, l.Represents p s →
    l.pool.isLive f → (l.run qs).pool.isLive f ∨
      ∃ before r after, qs = before ++ r :: after ∧ (l.run before).Frees f r := by
  induction qs with
  | nil =>
    intro l s h hl
    exact Or.inl hl
  | cons q qs ih =>
    intro l s h hl
    by_cases hf : l.Frees f q
    · exact Or.inr ⟨[], q, qs, rfl, hf⟩
    · obtain ⟨s', -, h'⟩ := h.step q
      rcases ih h' (h.stays hl hf) with hlive | ⟨before, r, after, rfl, hr⟩
      · exact Or.inl hlive
      · exact Or.inr ⟨q :: before, r, after, rfl, hr⟩

/-- When nothing is free any more, all is live. -/
theorem takes_rest (h : l.Represents p s) {n : Nat} (hn : l.pool.free ≤ n) {ts : List (Nat × Frame)}
    {s' : FrameSet} (hmany : FrameSet.TakesMany p.window s n ts s') {l' : Lending}
    (h' : l'.Represents p s') : ↑s'.live = p.window := by
  obtain ⟨hnodup, hfree, hlive, hlen | hall⟩ := hmany.hands
  · have hle := h.sound.live_le
    have hle' := h'.sound.live_le
    have hsplit : s'.live = (ts.map Prod.snd).toFinset ∪ s.live := by
      ext g
      simp [hlive g]
    have hdisjoint : Disjoint (ts.map Prod.snd).toFinset s.live := by
      rw [Finset.disjoint_left]
      intro g hg
      exact (hfree g (List.mem_toFinset.1 hg)).2
    have hcard := Finset.card_union_of_disjoint hdisjoint
    rw [← hsplit, List.toFinset_card_of_nodup hnodup, List.length_map, hlen, h.card, h'.card] at hcard
    have hframes := h.same.frames
    have hframes' := h'.same.frames
    have hz : l'.pool.free = 0 := by
      simp only [FramePool.free] at hn ⊢
      omega
    apply Set.Subset.antisymm h'.subset
    intro g hg
    rw [← h'.window] at hg
    exact (h'.live g).1 (isLive_of_free_eq_zero h'.sound hz hg)
  · exact hall

theorem exhibits (h : l.Represents p s) : l.Exhibits p.window p.frames s where
  subset := h.subset
  isLive := h.live
  live := h.card.symm
  free := by
    have hle := h.sound.live_le
    rw [h.card, FramePool.free, h.same.frames]
    have hframes := h.same.frames
    omega
  acquires q f hf := (h.of_acquires hf).1
  again q qs r f hq hr := by
    obtain ⟨s', -, h'⟩ := h.step q
    rcases h'.freed_or_isLive qs (h.of_acquires hq).2 with hlive | hfreed
    · obtain ⟨t, -, ht⟩ := h'.run qs
      have hdead := (ht.of_acquires hr).1.2
      exact absurd ((ht.live f).1 hlive) hdead
    · exact hfreed
  rest n hn := by
    obtain ⟨s', hstep, h'⟩ := h.step (.takeMany n)
    generalize ha : (l.step (.takeMany n)).1 = a at hstep
    cases hstep with
    | @takeMany _ _ ts hmany =>
      obtain ⟨hnodup, hfree, hlive, -⟩ := hmany.hands
      refine ⟨ts, rfl, hnodup, fun f => ⟨hfree f, ?_⟩⟩
      rintro ⟨hw, hn'⟩
      rw [← h.takes_rest hn hmany h'] at hw
      exact ((hlive f).1 hw).resolve_right hn'

end Represents

/-- A new lending has its pool's window, and no frame is live. -/
theorem represents_of_create {wordCount frames : Nat} {base : Frame} {threshold : Option LogLevel}
    (hc : create wordCount base frames threshold = .ok l) :
    l.Represents l.pool {} ∧ l.pool.base = base ∧ l.pool.frames = frames := by
  unfold create at hc
  cases hp : FramePool.create wordCount base frames with
  | error e =>
    rw [hp] at hc
    cases hc
  | ok p =>
    rw [hp] at hc
    obtain rfl := Except.ok.inj hc
    have hs := sound_of_create hp
    obtain ⟨hbase, hframes, hzero⟩ := of_create hp
    refine ⟨⟨hs, .refl p, ?_, rfl⟩, hbase, hframes⟩
    intro f
    have hempty : p.livePlaces = ∅ := by rw [← Finset.card_eq_zero, ← hs.count, hzero]
    constructor
    · intro hl
      obtain ⟨i, hi, hm⟩ := FramePool.isLive_iff.1 hl
      have hmem := mem_livePlaces.2 ⟨(place?_eq_some_iff.1 hi).2, hm⟩
      rw [hempty] at hmem
      cases hmem
    · rintro ⟨⟩

/-- **The pool is a finite set.** From a new pool of the frames `framesFrom base frames` on, the answers
of any steps are those of a set of live frames that starts empty, and the pool shows this set. -/
theorem refines_run {wordCount frames : Nat} {base : Frame} {threshold : Option LogLevel}
    (hc : create wordCount base frames threshold = .ok l) (ps : List PoolStep) :
    ∃ s, FrameSet.Run (framesFrom base frames) {} ps ((l.reports ps).map PoolReport.answer) s ∧
      (l.run ps).Exhibits (framesFrom base frames) frames s := by
  obtain ⟨h, rfl, rfl⟩ := represents_of_create hc
  obtain ⟨s, hrun, h'⟩ := h.run ps
  exact ⟨s, hrun, h'.exhibits⟩

/-- Frames are taken and reserved, and given back once and twice; then all others are taken. -/
def allKinds : List PoolStep :=
  [.take, .reserve ⟨0x11000⟩, .take, .release ⟨0x11FFF⟩, .release ⟨0x11000⟩, .release ⟨0x9000⟩,
    .giveBack 1, .giveBack 1, .isLive ⟨0x10000⟩, .takeMany 40, .take]

/-- The window of 33 frames ends behind the first bit of the second word. -/
theorem refines_run_small : ∃ l, create 2 (Page.ofNumber 16) 33 none = .ok l ∧
    ∃ s, FrameSet.Run (framesFrom (Page.ofNumber 16) 33) {} allKinds
        ((l.reports allKinds).map PoolReport.answer) s ∧
      (l.run allKinds).Exhibits (framesFrom (Page.ofNumber 16) 33) 33 s := by
  obtain ⟨l, hc⟩ : ∃ l, create 2 (Page.ofNumber 16) 33 none = .ok l := by
    rw [create, create_of_fits (by decide) (by decide)]
    exact ⟨_, rfl⟩
  exact ⟨l, hc, refines_run hc allKinds⟩

end Lending

end Paging
