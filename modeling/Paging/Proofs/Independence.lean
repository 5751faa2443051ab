import Paging.Proofs.Ownership

/-!
# What memory held at first does not matter

Two machines that differ only in what memory holds are booted and then go through the same events. The
paging operations never read a word that they have not written: `Holding.Twin` says that the two
differ in memory alone, outside of the frames that belong to the tables, and every harmless event keeps
it so (`Standing.twin_next`). Hence all answers are the same, and so are calls, pool, processor and the
tables themselves (`independent_run`).

A caller who gives back a frame that belongs to the tables takes part in this: the pool hands the frame
out again as a table, and what lies where the tables point to is then read before it is written
(`not_independent_foreign`).
-/

namespace Paging

/-- As many frames from the same base on, with whatever in them. -/
structure Ram.SameExtent (r r' : Ram) : Prop where
  base : r'.base = r.base
  size : r'.frames.size = r.frames.size

theorem Ram.SameExtent.holds_iff {r r' : Ram} (h : r.SameExtent r') (f : Frame) : r'.Holds f ↔ r.Holds f := by
  unfold Ram.Holds
  rw [h.base, h.size]

namespace Holding

/-- The same holding with the memory `r`. -/
def withRam (u : Holding) (r : Ram) : Holding :=
  { u with session := { u.session with machine := { u.session.machine with ram := r } } }

/-- `v` differs from `u` in what memory holds outside of the frames `F`, perhaps in the records of
windows and events, and in nothing else that events look at. -/
structure Twin (u v : Holding) (F : Set Frame) : Prop where
  machine : u.session.machine.Twin v.session.machine F
  space : v.session.space = u.session.space
  lent : v.session.lent = u.session.lent
  held : v.held = u.held

/-- Whatever can be seen of the two, it is the same. -/
structure Indistinct (u v : Holding) : Prop where
  space : v.session.space = u.session.space
  cpu : v.session.machine.cpu = u.session.machine.cpu
  calls : v.session.machine.calls = u.session.machine.calls
  pool : v.session.machine.pool = u.session.machine.pool
  taken : v.session.machine.taken = u.session.machine.taken
  returned : v.session.machine.returned = u.session.machine.returned
  lent : v.session.lent = u.session.lent
  owned : v.Owned = u.Owned
  tables : ∀ f ∈ u.Owned, v.session.machine.ram.frame? f = u.session.machine.ram.frame? f

variable {u v : Holding} {es : List Event} {F : Set Frame}

theorem twin_withRam {r : Ram} (hr : u.session.machine.ram.SameExtent r) : u.Twin (u.withRam r) ∅ where
  machine := ⟨rfl, rfl, rfl, rfl, rfl, hr.holds_iff, fun _ hf => absurd hf id⟩
  space := rfl
  lent := rfl
  held := rfl

namespace Twin

theorem lending (h : u.Twin v F) : u.lending.SameFrames v.lending := ⟨h.machine.pool, h.lent⟩

theorem answer_pool (h : u.Twin v F) (p : PoolStep) : v.answer (.pool p) = u.answer (.pool p) :=
  congrArg (Except.map Answer.pool) (h.lending.step p).1

theorem next_pool (h : u.Twin v F) (p : PoolStep) : (u.next (.pool p)).Twin (v.next (.pool p)) F := by
  obtain ⟨-, hstep⟩ := h.lending.step p
  refine ⟨{ h.machine with pool := hstep.pool }, h.space, hstep.lent, ?_⟩
  show v.lending.heldAfter v.held p = u.lending.heldAfter u.held p
  rw [h.held]
  exact h.lending.heldAfter u.held p

end Twin

/-! ## Events -/

namespace Standing

theorem twin_next_idle (h : u.Idle) (ht : u.Twin v ∅) (e : Event) :
    v.answer e = u.answer e ∧ (u.next e).Twin (v.next e) ∅ := by
  cases e with
  | space p =>
    have hstep : v.session.step (.space p) = (.error (.missing .addressSpace), v.session) := by
      show v.session.spaceStep p = _
      simp only [Session.spaceStep, ht.space.trans h.space]
    simp only [answer, Holding.next, h.step_space, hstep]
    exact ⟨trivial, ht⟩
  | pool p => exact ⟨ht.answer_pool p, ht.next_pool p⟩
  | cache va =>
    have hcache : Machine.cacheWalk va v.session.machine = v.session.machine := by
      simp only [Machine.cacheWalk, ht.machine.cpu, h.root, Option.map_none]
    simp only [answer, Holding.next, h.cacheWalk, hcache]
    exact ⟨trivial, ht⟩

/-- A step of the address space reads the tables alone. -/
theorem twin_next_space {t : Tables} (h : Backed .windows u t) (ht : u.Twin v t.owned) (p : SpaceStep) :
    v.answer (.space p) = u.answer (.space p) ∧
      (u.next (.space p)).Twin (v.next (.space p)) (t.step p).2.owned := by
  have hspace := ht.space.trans h.space
  by_cases hr : p.InRange
  · obtain ⟨m, hm, -, htwin⟩ := (Performs.step h.sound hr (Or.inr rfl)).computes _ h.mirrors
    obtain ⟨n, hn, hmn⟩ := htwin _ ht.machine
    simp only [answer, Holding.next, spaceStep_of_ok h.space hm, spaceStep_of_ok hspace hn]
    exact ⟨trivial, hmn, ht.space, ht.lent, ht.held⟩
  · obtain ⟨hm, hstep⟩ := Space.step_of_not_inRange hr u.session.machine t
    obtain ⟨hn, -⟩ := Space.step_of_not_inRange hr v.session.machine t
    simp only [answer, Holding.next, spaceStep_of_error h.space hm, spaceStep_of_error hspace hn, hstep]
    exact ⟨trivial, ht⟩

/-- A harmless event has the same answer on both sides, and they differ as little afterwards. -/
theorem twin_next (h : u.Standing F) (ht : u.Twin v F) {e : Event} (hf : u.Harmless e) :
    v.answer e = u.answer e ∧ ∃ F', (u.next e).Standing F' ∧ (u.next e).Twin (v.next e) F' := by
  cases h with
  | idle h =>
    obtain ⟨hanswer, ht'⟩ := twin_next_idle h ht e
    exact ⟨hanswer, ∅, .idle (h.next hf), ht'⟩
  | @backed t h =>
    cases e with
    | space p =>
      obtain ⟨hanswer, ht'⟩ := twin_next_space h ht p
      exact ⟨hanswer, _, .backed (h.step_space (Or.inr rfl)).2.2, ht'⟩
    | pool p => exact ⟨ht.answer_pool p, _, .backed (h.step_pool hf), ht.next_pool p⟩
    | cache va =>
      have h' : Backed .windows (u.next (.cache va)) t :=
        { h with mirrors := h.mirrors.cacheWalk h.sound va }
      exact ⟨rfl, _, .backed h', ht.machine.cacheWalk h.mirrors h.sound va, ht.space, ht.lent, ht.held⟩

theorem twin_run (h : u.Standing F) (ht : u.Twin v F) (hf : u.HarmlessRun es) :
    v.answers es = u.answers es ∧ ∃ F', (u.run es).Standing F' ∧ (u.run es).Twin (v.run es) F' := by
  induction es generalizing u v F with
  | nil => exact ⟨rfl, F, h, ht⟩
  | cons e es ih =>
    obtain ⟨hanswer, F₁, h₁, ht₁⟩ := h.twin_next ht hf.1
    obtain ⟨hanswers, hrest⟩ := ih h₁ ht₁ hf.2
    refine ⟨?_, hrest⟩
    simp only [answers, hanswer, hanswers]

theorem indistinct (h : u.Standing F) (ht : u.Twin v F) : u.Indistinct v := by
  have howned : v.Owned = u.Owned := by
    ext f
    refine exists_congr fun root => ?_
    rw [ht.space]
    refine and_congr_right fun hspace => or_congr_right (exists_congr fun i => ?_)
    have hroot : root ∈ F := by
      rw [← h.owned]
      exact ⟨root, hspace, Or.inl rfl⟩
    rw [Ram.Links, Ram.Links, ht.machine.word? hroot]
  refine ⟨ht.space, ht.machine.cpu, ht.machine.calls, ht.machine.pool, ht.machine.taken,
    ht.machine.returned, ht.lent, howned, ?_⟩
  rw [h.owned]
  exact ht.machine.frames

end Standing

/-! ## Boot -/

/-- Boot does the same on both sides. -/
theorem Idle.twin_afterBoot (h : u.Idle) (ht : u.Twin v ∅) :
    (v.session.step .boot).1 = (u.session.step .boot).1 ∧
      ∃ F, u.afterBoot.Standing F ∧ u.afterBoot.Twin v.afterBoot F := by
  rcases ht.machine.boot h.pool h.inRam with
    ⟨e, m, n, hm, hn, hmn⟩ | ⟨root, table, p₁, pool, m, n, h₁, h₂, hm, hn, hmn⟩
  · have hs := step_boot_refused hm
    have hs' := step_boot_refused hn
    refine ⟨by rw [hs, hs'], ∅, ?_, ?_⟩
    · rcases h.boot with ⟨_, _, _, _, _, -, -, hb⟩ | ⟨_, s, hb, -, hi⟩
      · rw [hs] at hb; cases hb
      · simp only [afterBoot, hb]
        exact .idle hi
    · simp only [afterBoot, hs, hs']
      exact ⟨hmn, ht.space, ht.lent, ht.held⟩
  · have hs := step_boot hm
    have hs' := step_boot hn
    obtain ⟨hr, -⟩ := holds_boot_frames h.pool h.inRam h₁ h₂
    refine ⟨by rw [hs, hs'], (bootTables u.session.machine root table pool).owned, ?_, ?_⟩
    · rcases h.boot with ⟨root', table', p₁', pool', log, h₁', h₂', hb⟩ | ⟨_, _, hb, -, -⟩
      · rw [h₁] at h₁'; cases h₁'
        rw [h₂] at h₂'; cases h₂'
        simp only [afterBoot, hb]
        exact .backed (h.backed h₁ h₂ .windows log)
      · rw [hs] at hb; cases hb
    · simp only [afterBoot, hs, hs']
      exact ⟨hmn.mono (owned_bootTables_subset hr), rfl, ht.lent, ht.held⟩

/-! ## Runs -/

/-- Whatever memory held before boot, all that can be seen afterwards is the same. -/
theorem independent_run (hu : u.Unbooted) {r : Ram} (hr : u.session.machine.ram.SameExtent r)
    (hf : u.afterBoot.HarmlessRun es) :
    ((u.withRam r).session.step .boot).1 = (u.session.step .boot).1 ∧
      (u.withRam r).afterBoot.answers es = u.afterBoot.answers es ∧
      (u.afterBoot.run es).Indistinct ((u.withRam r).afterBoot.run es) := by
  obtain ⟨hboot, F, h, ht⟩ := hu.idle.twin_afterBoot (twin_withRam hr)
  obtain ⟨hanswers, F', h', ht'⟩ := h.twin_run ht hf
  exact ⟨hboot, hanswers, h'.indistinct ht'⟩

/-- The memory of the small machine, with zero in the first word of one frame. -/
def scrubbed : Ram :=
  small.session.machine.ram.putWord (Address.page ⟨0x17000⟩ .small) (Session.wordIndex ⟨0x17000⟩) 0

/-- Giving back a frame that is free already is refused, and does not matter. -/
theorem independent_run_small :
    ((small.withRam scrubbed).session.step .boot).1 = (small.session.step .boot).1 ∧
      (small.withRam scrubbed).afterBoot.answers [.pool (.release ⟨0x17000⟩),
        .space (.releaseLarge ⟨0x400000⟩), .space (.map ⟨0x400000⟩ ⟨0x5000⟩ ⟨3⟩),
        .space (.translate ⟨0x401000⟩)] =
      small.afterBoot.answers [.pool (.release ⟨0x17000⟩), .space (.releaseLarge ⟨0x400000⟩),
        .space (.map ⟨0x400000⟩ ⟨0x5000⟩ ⟨3⟩), .space (.translate ⟨0x401000⟩)] ∧
      (small.afterBoot.run [.pool (.release ⟨0x17000⟩), .space (.releaseLarge ⟨0x400000⟩),
        .space (.map ⟨0x400000⟩ ⟨0x5000⟩ ⟨3⟩), .space (.translate ⟨0x401000⟩)]).Indistinct
      ((small.withRam scrubbed).afterBoot.run [.pool (.release ⟨0x17000⟩),
        .space (.releaseLarge ⟨0x400000⟩), .space (.map ⟨0x400000⟩ ⟨0x5000⟩ ⟨3⟩),
        .space (.translate ⟨0x401000⟩)]) := by
  have hextent : small.session.machine.ram.SameExtent scrubbed := by
    constructor <;> decide +kernel
  refine independent_run unbooted_small hextent ⟨?_, trivial, trivial, trivial, trivial⟩
  have hdead : small.afterBoot.lending.pool.isLive (Address.page ⟨0x17000⟩ .small) = false := by
    decide +kernel
  intro hl
  rw [hdead] at hl; cases hl

/-- The caller gives back the directory, which then becomes the table of slot 7; what is mapped there
replaces directory slots, and makes a table for slot 5 of a frame that was never written. -/
def foreignRelease : List Event :=
  [.space (.releaseLarge ⟨0x1C00000⟩), .pool (.release ⟨0x10000⟩),
    .space (.map ⟨0x1C07000⟩ ⟨0x10000⟩ ⟨3⟩), .space (.map ⟨0x1FFF000⟩ ⟨0x10000⟩ ⟨3⟩),
    .space (.map ⟨0x1C05000⟩ ⟨0x17000⟩ ⟨3⟩), .space (.translate ⟨0x1400000⟩)]

/-- Without harmlessness, one word of memory decides what an address translates to. -/
theorem not_independent_foreign :
    small.Unbooted ∧ small.session.machine.ram.SameExtent scrubbed ∧
      (small.afterBoot.answers foreignRelease).getLast? =
        some (.ok (.translation ⟨0xA5A5A000⟩ ⟨0x5A5⟩)) ∧
      ((small.withRam scrubbed).afterBoot.answers foreignRelease).getLast? = some (.ok .nothing) := by
  refine ⟨unbooted_small, ⟨?_, ?_⟩, ?_, ?_⟩
  · decide +kernel
  · decide +kernel
  · decide +kernel
  · decide +kernel

end Holding

end Paging
