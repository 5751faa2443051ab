import Paging.Proofs.Runs

/-!
# No stale translation

The processor may cache what the tables give for any page, at any moment between two steps, and drops
only what it is told to drop. `Holding.Coherent` says that this is harmless: below the windows nothing
that is cached differs from the tables; a cached window differs from its slot only while the slot is
absent; and every window that an operation used showed the frame that its slot named. It holds after
every fair run in which no entry is written behind the processor's back (`coherent_run`).
-/

namespace Paging

namespace Holding

structure Coherent (u : Holding) (root : Frame) : Prop where
  cr3 : u.session.machine.cpu.root = some root
  /-- A cached 4 KiB page below the windows is what the tables give for it. -/
  small : ∀ p f, (p, f) ∈ u.session.machine.cpu.tlb.small → p.base.val < 0xFFC00000 →
    ∃ slot entry, u.session.machine.ram.walk root p.base = .small slot entry ∧ Walk.frameOf entry = f
  /-- A cached 4 MiB page is what the tables give for it. -/
  large : ∀ r q, (r, q) ∈ u.session.machine.cpu.tlb.large →
    ∃ slot, u.session.machine.ram.walk root r.base = .large slot ∧ Walk.pageOf slot = q
  /-- A cached window is the frame of its slot, unless the slot is absent. -/
  window : ∀ i f, ((tableView i).page .small, f) ∈ u.session.machine.cpu.tlb.small → ∀ w,
    u.session.machine.ram.word? root i = some w → w &&& 0x01 ≠ 0 → Walk.frameOf w = f
  /-- Every window that was used showed the frame of its slot. -/
  uses : ∀ w ∈ u.session.machine.uses, w.Right
  /-- No window that a step asks for is missing. -/
  noFault : ∀ p, p.InRange → p.DropsWhatItWrites → ∀ e,
    (u.session.step (.space p)).1 ≠ .error (.fault e)
  /-- Caching one more translation drops none. -/
  keepsSmall : ∀ va e, e ∈ u.session.machine.cpu.tlb.small →
    e ∈ (Machine.cacheWalk va u.session.machine).cpu.tlb.small
  keepsLarge : ∀ va e, e ∈ u.session.machine.cpu.tlb.large →
    e ∈ (Machine.cacheWalk va u.session.machine).cpu.tlb.large

variable {u : Holding} {es : List Event} {t : Tables} {i : SlotIndex} {f : Frame}
  {p : Page .virtual .small}

/-- What is cached for a page below the windows is what a walk gives. -/
theorem Backed.gives (h : Backed .all u t) (hp : (p, f) ∈ u.session.machine.cpu.tlb.small)
    (hs : p.base.slotIndex ≠ selfMapSlot) : t.Gives p f := by
  rcases h.mirrors.cached.small p f hp trivial with hg | hv
  · exact hg
  · exact absurd hv.1 hs

theorem Backed.frameOf_window (h : Backed .all u t)
    (hp : ((tableView i).page .small, f) ∈ u.session.machine.cpu.tlb.small)
    (hi : (t.slot i).present = true) : Walk.frameOf (t.slot i).bits = f := by
  have hs : ((tableView i).page .small).base.slotIndex = selfMapSlot := by simp
  have hwalk := Tables.walk_window h.sound hs
  rw [Address.entryIndex_base_page, entryIndex_tableView, if_pos hi] at hwalk
  exact Tables.eq_of_translations_all hwalk (h.mirrors.cached.small _ f hp)

theorem Backed.walk_cacheWalk {s : Scope} (h : Backed s u t) (va : VirtualAddress) :
    (u.session.machine.cpu.root.map fun root => u.session.machine.ram.walk root va) = some (t.walk va) := by
  rw [h.mirrors.root, h.mirrors.ram]; rfl

theorem Backed.small_cacheWalk (h : Backed .all u t) (va : VirtualAddress)
    (hp : (p, f) ∈ u.session.machine.cpu.tlb.small) :
    (p, f) ∈ (Machine.cacheWalk va u.session.machine).cpu.tlb.small := by
  unfold Machine.cacheWalk
  rw [h.walk_cacheWalk]
  split
  · rename_i w e hw
    by_cases hpage : p = va.page .small
    · -- the old translation of the page is the new one
      have hw' : t.walk p.base = .small w e := by
        rw [hpage, Tables.walk_page h.sound]; exact Option.some.inj hw
      rw [← Tables.eq_of_translations_all hw' (h.mirrors.cached.small p f hp), hpage]
      exact List.mem_cons_self
    · exact List.mem_cons_of_mem _ (List.mem_filter.2 ⟨hp, by simpa using hpage⟩)
  · exact hp
  · exact hp

theorem Backed.large_cacheWalk (h : Backed .all u t) (va : VirtualAddress) {r : Page .virtual .large}
    {q : Page .physical .large} (hr : (r, q) ∈ u.session.machine.cpu.tlb.large) :
    (r, q) ∈ (Machine.cacheWalk va u.session.machine).cpu.tlb.large := by
  unfold Machine.cacheWalk
  rw [h.walk_cacheWalk]
  split
  · exact hr
  · rename_i w hw
    by_cases hpage : r = va.page .large
    · obtain ⟨w', hw', hq⟩ := h.mirrors.cached.large r q hr trivial
      rw [hpage, Tables.walk_region h.sound (Option.some.inj hw)] at hw'
      cases hw'
      rw [← hq, hpage]
      exact List.mem_cons_self
    · exact List.mem_cons_of_mem _ (List.mem_filter.2 ⟨hr, by simpa using hpage⟩)
  · exact hr

theorem Backed.coherent (h : Backed .all u t) : u.Coherent t.root where
  cr3 := h.mirrors.root
  small p f hp hlow := by
    have hs : p.base.slotIndex ≠ selfMapSlot := by
      intro hs
      have hle : windowBase ≤ p.base := by simpa [inWindow] using (inWindow_iff p.base).2 hs
      exact UInt32.not_lt.2 hle hlow
    obtain ⟨w, e, hw, hf⟩ := h.gives hp hs
    exact ⟨w, e, by rw [h.mirrors.ram]; exact hw, hf⟩
  large r q hr := by
    obtain ⟨w, hw, hq⟩ := h.mirrors.cached.large r q hr trivial
    exact ⟨w, by rw [h.mirrors.ram]; exact hw, hq⟩
  window i f hp w hw hpresent := by
    rw [h.mirrors.ram, h.sound.word?_slot] at hw
    obtain rfl := Option.some.inj hw
    exact h.frameOf_window hp ((DirEntry.present_iff _).2 hpresent)
  uses := h.mirrors.uses
  noFault p hr hd e := by
    have hf : Scope.all.Follows p := Or.inl hd
    rw [(h.step_space hf).1]
    exact Tables.step_ne_fault hr t e
  keepsSmall va _ he := h.small_cacheWalk va he
  keepsLarge va _ he := h.large_cacheWalk va he

/-- Whatever the processor caches between the steps, nothing stale is ever used. -/
theorem coherent_run (hb : u.Booted) (hf : u.FairRun es)
    (hw : ∀ p, .space p ∈ es → p.DropsWhatItWrites) : ∃ root, (u.run es).Coherent root := by
  obtain ⟨m, root, table, pool, -, -, -, h⟩ := hb.backed .all
  obtain ⟨t, -, h'⟩ := h.run hf fun p hp => Or.inl (hw p hp)
  exact ⟨t.root, h'.coherent⟩

theorem coherent_run_small : ∃ root, (smallBooted.run [.cache ⟨0x400000⟩, .cache ⟨0xFFC01000⟩,
    .space (.releaseLarge ⟨0x400000⟩), .cache ⟨0x3000⟩, .space (.map ⟨0x400000⟩ ⟨0x2000⟩ ⟨3⟩),
    .cache ⟨0x400000⟩]).Coherent root := by
  refine coherent_run booted_small ⟨trivial, trivial, trivial, trivial, trivial, trivial, trivial⟩ ?_
  intro p hp
  simp only [List.mem_cons, Event.space.injEq, reduceCtorEq, false_or, List.not_mem_nil, or_false] at hp
  rcases hp with rfl | rfl <;> trivial

end Holding

end Paging
