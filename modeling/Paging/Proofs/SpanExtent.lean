import Paging.Proofs.Spans

/-!
# Which pages a step on a span works on

A step on a span does what steps on single pages do, one for each of a row of pages, in ascending order
and up to the first that fails (`Holding.ActsOn`). Of a span that is not empty, and of an empty one at a
page boundary, these are the pages that hold a byte of the span. The count of pages rounds up from the
start of the page of `va`, however, so that an empty span inside a page counts as one page, of which it
holds no byte. `Holding.WorksByPage` tells these cases apart; `empty_span_unmaps` is a page lost to an
empty span.
-/

namespace Paging

namespace Holding

/-- Steps on the `len` bytes at `va` are steps on `pages`, one after the other, up to the first that
fails; for unmapping, that is the first past 4 GiB. -/
structure ActsOn (u : Holding) (va : VirtualAddress) (pa : PhysicalAddress) (len : UInt32)
    (flags : EntryBits) (pages : Finset Nat) : Prop where
  inRow : pages = Finset.Ico (va.page .small).number ((va.page .small).number + pages.card)
  map : ∃ k, StopsAt (u.SpanFails va pa flags) pages.card k ∧
    (u.after (.mapNth va pa flags) k).Untouched (u.next (.space (.mapSpan va pa len flags)))
  unmap : ∃ k, StopsAt va.Overruns pages.card k ∧
    (u.after (.unmapNth va) k).Untouched (u.next (.space (.unmapSpan va len)))

/-- A step on a span works on the pages it touches, unless the span is empty and starts inside a page. -/
structure WorksByPage (u : Holding) : Prop where
  touched : ∀ va pa len flags, 0 < len ∨ va.isAligned .small → u.ActsOn va pa len flags (touched va len)
  /-- There is nothing to do for an empty span at a page boundary. -/
  empty : ∀ va pa flags p, va.isAligned .small → p = .mapSpan va pa 0 flags ∨ p = .unmapSpan va 0 →
    u.Untouched (u.next (.space p)) ∧ ∀ vb,
      (u.next (.space p)).answer (.space (.translate vb)) = u.answer (.space (.translate vb))
  /-- Inside a page, it is taken for a span of one page. -/
  rounded : ∀ va pa flags, ¬va.isAligned .small → u.ActsOn va pa 0 flags {(va.page .small).number}

variable {u : Holding} {t : Tables} {va : VirtualAddress} {len : UInt32} {pages : Finset Nat}
  {es : List Event}

namespace Backed

theorem actsOn (h : Backed .windows u t) (pa : PhysicalAddress) (flags : EntryBits)
    (hrow : pages = Finset.Ico (va.page .small).number ((va.page .small).number + pages.card))
    (hcard : pages.card = Space.pagesInSpan va len) : u.ActsOn va pa len flags pages := by
  refine ⟨hrow, ?_, ?_⟩
  · obtain ⟨k, hk⟩ := exists_stopsAt (t.SpanFails va pa flags) pages.card
    exact ⟨k, h.stopsAt_iff.2 hk, (h.after _ k).untouched (h.next_mapSpan (hcard ▸ hk))⟩
  · obtain ⟨k, hk⟩ := exists_stopsAt va.Overruns pages.card
    exact ⟨k, hk, (h.after _ k).untouched (h.next_unmapSpan (hcard ▸ hk))⟩

theorem worksByPage (h : Backed .windows u t) : u.WorksByPage where
  touched va pa len flags hlen := by
    refine h.actsOn pa flags ?_ (card_touched hlen)
    rw [card_touched hlen]
    exact touched_eq_Ico hlen
  empty va pa flags p ha hp := by
    have hzero {Fails : Nat → Prop} : StopsAt Fails (Space.pagesInSpan va 0) 0 := by
      rw [pagesInSpan_aligned ha]
      exact ⟨le_rfl, by simp, by simp⟩
    have h' : Backed .windows (u.next (.space p)) t := by
      rcases hp with rfl | rfl
      · exact h.next_mapSpan hzero
      · exact h.next_unmapSpan hzero
    refine ⟨h.untouched h', ?_⟩
    intro vb
    rw [h'.answer_space, h.answer_space]
  rounded va pa flags ha := by
    refine h.actsOn pa flags ?_ (pagesInSpan_unaligned ha).symm
    rw [Finset.card_singleton, Nat.Ico_succ_singleton]

end Backed

/-- At every moment after boot, a step on a span works page by page. -/
theorem worksByPage_run (hb : u.Booted) (hf : u.HarmlessRun es) : (u.run es).WorksByPage := by
  obtain ⟨t, -, h⟩ := hb.run_backed hf
  exact h.worksByPage

theorem worksByPage_run_small : (smallBooted.run [.space (.unmapSpan ⟨0x3004⟩ 0), .pool .take,
    .space (.mapSpan ⟨0x3004⟩ ⟨0x5000⟩ 0x2000 ⟨3⟩)]).WorksByPage :=
  worksByPage_run booted_small ⟨trivial, trivial, trivial, trivial⟩

/-- A page that is mapped to itself is lost to the unmapping of no bytes at all, and goes to another frame
with the mapping of none. -/
theorem empty_span_unmaps : smallBooted.Booted ∧ touched ⟨0x3004⟩ 0 = ∅ ∧
    smallBooted.answer (.space (.translate ⟨0x3004⟩)) = .ok (.translation ⟨0x3004⟩ ⟨0x003⟩) ∧
    (smallBooted.next (.space (.unmapSpan ⟨0x3004⟩ 0))).answer (.space (.translate ⟨0x3004⟩)) =
      .ok .nothing ∧
    (smallBooted.next (.space (.mapSpan ⟨0x3004⟩ ⟨0x9000⟩ 0 ⟨3⟩))).answer (.space (.translate ⟨0x3004⟩)) =
      .ok (.translation ⟨0x9004⟩ ⟨0x003⟩) := by
  refine ⟨booted_small, touched_zero _, ?_, ?_, ?_⟩
  · decide +kernel
  · decide +kernel
  · decide +kernel

end Holding

end Paging
