import Paging.Proofs.Runs

/-!
# Nothing faults after boot

Whatever could go wrong is a fault of the machine: bus errors, windows that are used before paging is on,
page faults in a window, the window of the self-map slot, indices out of range, numbers that are too large
for their field, sums and products that run over their word, and frames that are given back twice. After
boot no step of a fair run ends in one (`safe_run`). Paging stays on, and every window that was used showed
the frame that the directory word of its slot named at that moment.

Only the pool counts without checks. `FramePool.InBounds` says that it needs none: the bitmap is never
searched past its end, the counter never goes below zero or above the number of frames, and every place of
the pool is a frame.
-/

namespace Paging

namespace FramePool

/-- The places of a pool are frames, they have bits, and the counter stays between none and all. -/
structure InBounds (p : FramePool) : Prop where
  window : p.base.number + p.frames ≤ PageSize.small.pageCount
  words : ∀ i < p.frames, i / 32 < p.words.size
  free : p.live + p.free = p.frames
  lowest : ∀ i, p.lowestFree? = some i → i < p.frames ∧ p.live < p.frames
  live : ∀ f, p.isLive f → 0 < p.live

variable {p : FramePool}

theorem Sound.inBounds (h : p.Sound) : p.InBounds where
  window := h.window
  words i hi := by
    have := h.capacity
    omega
  free := by
    have := h.live_le
    simp only [FramePool.free]
    omega
  lowest i hi := by
    have ht : p.takeLowest? = some (p.frameAt i, p.mark i true) := by rw [takeLowest?, hi]; rfl
    obtain ⟨hlt, hclear⟩ := marked_of_lowestFree? hi
    constructor
    · by_contra hge
      rw [h.tail i (by omega) hlt] at hclear; cases hclear
    · have hfree := (take_spec h ht).2.2.2.2
      simp only [FramePool.free] at hfree
      omega
  live f hf := by
    obtain ⟨i, hp, hm⟩ := isLive_iff.1 hf
    rw [h.count]
    exact Finset.card_pos.2 ⟨i, mem_livePlaces.2 ⟨(place?_eq_some_iff.1 hp).2, hm⟩⟩

end FramePool

/-! ## Runs -/

namespace Holding

/-- What can be said of the events `es` after boot, with the directory in `root`. -/
structure Safe (u : Holding) (es : List Event) (root : Frame) : Prop where
  noFault : ∀ a ∈ u.answers es, ∀ e, a ≠ .error (.fault e)
  paging : (u.run es).session.machine.cpu.paging = true
  /-- What was seen in a window is the frame in the directory word of its slot, and in the last window
  the directory itself. -/
  windows : ∀ w ∈ (u.run es).session.machine.uses, w.Right ∧ w.OfTable root
  pool : (u.run es).session.machine.pool.InBounds

variable {u : Holding} {es : List Event} {t : Tables}

theorem Backed.answer_ne_fault (h : Backed .windows u t) {e : Event} (hf : u.Fair e)
    (hr : ∀ p, e = .space p → p.InRange) (x : Fault) : u.answer e ≠ .error (.fault x) := by
  cases e with
  | space p =>
    rw [answer, (h.step_space (Or.inr rfl)).1]
    exact Tables.step_ne_fault (hr p rfl) t x
  | pool p =>
    have hpool : u.lending.pool = t.pool := h.mirrors.pool
    have hne := Lending.step_ne_fault (hpool ▸ h.sound.pool) (hpool ▸ h.owns) hf x
    show (u.lending.step p).1.map Answer.pool ≠ _
    cases hl : (u.lending.step p).1 with
    | ok a => simp [Except.map]
    | error e =>
      rw [hl] at hne
      intro heq
      cases heq
      exact hne rfl
  | cache va => simp [answer]

theorem Backed.answers_ne_fault (h : Backed .windows u t) (hf : u.FairRun es)
    (hr : ∀ p, .space p ∈ es → p.InRange) : ∀ a ∈ u.answers es, ∀ x, a ≠ .error (.fault x) := by
  induction es generalizing u t with
  | nil =>
    intro a ha
    exact absurd ha List.not_mem_nil
  | cons e es ih =>
    obtain ⟨t₁, -, h₁⟩ := h.next hf.1.harmless fun _ _ => Or.inr rfl
    intro a ha
    rcases List.mem_cons.1 ha with rfl | ha
    · exact h.answer_ne_fault hf.1 fun p hp => hr p (hp ▸ List.mem_cons_self)
    · exact ih h₁ hf.2 (fun p hp => hr p (List.mem_cons_of_mem _ hp)) a ha

/-- After boot, no step with an index in range faults, whatever else its arguments are. -/
theorem safe_run (hb : u.Booted) (hf : u.FairRun es) (hr : ∀ p, .space p ∈ es → p.InRange) :
    ∃ root, u.session.space = some ⟨some ⟨root⟩⟩ ∧ u.Safe es root := by
  obtain ⟨m, root, table, pool, -, -, -, h⟩ := hb.backed .windows
  obtain ⟨t, hroot, h'⟩ := h.run hf fun _ _ => Or.inr rfl
  have hroot : t.root = root := hroot
  refine ⟨root, h.space, h.answers_ne_fault hf hr, h'.mirrors.paging, ?_, ?_⟩
  · intro w hw
    exact ⟨h'.mirrors.uses w hw, hroot ▸ h'.mirrors.windows w hw⟩
  · rw [h'.mirrors.pool]
    exact h'.sound.pool.inBounds

theorem safe_run_small : ∃ root, smallBooted.session.space = some ⟨some ⟨root⟩⟩ ∧
    smallBooted.Safe [.space (.mapSpan ⟨0xFFBFF000⟩ ⟨0xFFFFF000⟩ 0xFFFFFFFF ⟨3⟩), .pool .take,
      .space (.translate ⟨0xFFFFFFFF⟩), .space (.slotContent 1023), .space (.entriesOf 0)] root := by
  refine safe_run booted_small ⟨trivial, trivial, trivial, trivial, trivial, trivial⟩ ?_
  intro p hp
  simp only [List.mem_cons, Event.space.injEq, reduceCtorEq, false_or, List.not_mem_nil, or_false] at hp
  rcases hp with rfl | rfl | rfl | rfl
  · trivial
  · trivial
  · exact show 1023 < 1024 by decide
  · exact show 0 < 1024 by decide

end Holding

end Paging
