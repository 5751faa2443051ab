import Paging.Proofs.Spans

/-!
# Unmapping a span

Unmapping a span removes the small pages in it and nothing else. Pages of 4 MiB, absent slots and the
window do not stop it, and at 4 GiB it ends. `Holding.RemovesSpan` says so of every span that is not
empty, at every moment of every harmless run (`removesSpan_run`), and that a second time finds nothing
left to do.

`Keeps` is what each page leaves alone: the slots and the pool. With the slots as they were, the pages
that are removed can be told in advance (`translate_after_unmapNth`).
-/

namespace Paging

namespace Tables

/-- The directory and its slots, the pool and its balance are the same. -/
structure Keeps (t t' : Tables) : Prop where
  root : t'.root = t.root
  slot : ∀ i, t'.slot i = t.slot i
  pool : t'.pool = t.pool
  taken : t'.taken = t.taken
  returned : t'.returned = t.returned

variable {t t' t'' : Tables} {va vb : VirtualAddress} {len : UInt32} {n k : Nat} {p : Nat → SpaceStep}

namespace Keeps

theorem refl (t : Tables) : t.Keeps t := ⟨rfl, fun _ => rfl, rfl, rfl, rfl⟩

theorem trans (h : t.Keeps t') (h' : t'.Keeps t'') : t.Keeps t'' where
  root := h'.root.trans h.root
  slot i := (h'.slot i).trans (h.slot i)
  pool := h'.pool.trans h.pool
  taken := h'.taken.trans h.taken
  returned := h'.returned.trans h.returned

theorem table? (h : t.Keeps t') (i : SlotIndex) : t'.table? i = t.table? i := congrArg DirEntry.table? (h.slot i)

end Keeps

theorem unmap_keeps (h : t.Sound) (va : VirtualAddress) : t.Keeps (t.unmap va) := by
  by_cases hm : t.Maps va
  · obtain ⟨f, hs, hf, hu⟩ := unmap_of_maps hm
    rw [hu]
    exact ⟨rfl, slot_put (p := ⟨f, va.entryIndex⟩) h hs hf va _, rfl, rfl, rfl⟩
  · rw [unmap_of_not_maps hm]
    exact .refl t

theorem after_unmapNth_keeps (h : t.Sound) (va : VirtualAddress) (k : Nat) :
    t.Keeps (t.after (.unmapNth va) k) := by
  induction k with
  | zero => exact .refl t
  | succ k ih => exact ih.trans (unmap_keeps (h.after _ k) (va.nthPage k))

/-- After `k` pages, those of them in a table are gone, and all others are as they were. -/
theorem translate_after_unmapNth (h : t.Sound) (vb : VirtualAddress) (hk : ∀ i < k, ¬va.Overruns i) :
    (t.after (.unmapNth va) k).translate vb =
      if (vb.page .small).number ∈ Finset.Ico (va.page .small).number ((va.page .small).number + k) ∧
        vb.slotIndex ≠ selfMapSlot ∧ (t.table? vb.slotIndex).isSome then none
      else t.translate vb := by
  induction k with
  | zero => simp [after]
  | succ k ih =>
    have hv := hk k (Nat.lt_succ_self k)
    have hstep := translate_unmap (h.after (.unmapNth va) k) (va.nthPage k) vb
    rw [(after_unmapNth_keeps h va k).table?, ih fun i hi => hk i (Nat.lt_succ_of_lt hi)] at hstep
    refine hstep.trans ?_
    have hpage := Address.page_eq_nthPage_iff (b := vb) hv
    by_cases hn : (vb.page .small).number = (va.page .small).number + k
    · have hslot := ((Address.page_eq_iff _ _).1 (hpage.2 hn)).1
      simp [hpage, hn, hslot]
    · have hmem : (vb.page .small).number ∈
            Finset.Ico (va.page .small).number ((va.page .small).number + (k + 1)) ↔
          (vb.page .small).number ∈ Finset.Ico (va.page .small).number ((va.page .small).number + k) := by
        rw [Finset.mem_Ico, Finset.mem_Ico]
        omega
      simp only [hpage, hn, false_and, if_false, hmem]

/-! ## The second time -/

theorem after_eq_self (hp : ∀ i < k, (t.step (p i)).2 = t) : t.after p k = t := by
  induction k with
  | zero => rfl
  | succ k ih =>
    rw [after, ih fun i hi => hp i (Nat.lt_succ_of_lt hi)]
    exact hp k (Nat.lt_succ_self k)

/-- No page of the span is left to be unmapped. -/
theorem after_unmapNth_again (h : t.Sound) (hk : ∀ i < k, ¬va.Overruns i) :
    (t.after (.unmapNth va) k).after (.unmapNth va) k = t.after (.unmapNth va) k := by
  refine after_eq_self ?_
  intro i hi
  refine unmap_of_not_maps fun hm => ?_
  have hkeeps := after_unmapNth_keeps h va k
  refine translate_of_maps hm ?_
  obtain ⟨hs, f, hf, -⟩ := hm
  rw [hkeeps.table?] at hf
  rw [translate_after_unmapNth h _ hk, if_pos]
  rw [Address.number_nthPage (hk i hi), Finset.mem_Ico, hf]
  exact ⟨by omega, hs, rfl⟩

end Tables

/-- The pages of a span that lie below 4 GiB are those before the first that does not. -/
theorem mem_touched_iff_of_stopsAt {va vb : VirtualAddress} {len : UInt32} {k : Nat} (hlen : 0 < len)
    (hk : StopsAt va.Overruns (Space.pagesInSpan va len) k) : (vb.page .small).number ∈ touched va len ↔
      (vb.page .small).number ∈ Finset.Ico (va.page .small).number ((va.page .small).number + k) := by
  rw [touched_eq_Ico (Or.inl hlen), Finset.mem_Ico, Finset.mem_Ico]
  have hle := hk.le
  refine and_congr_right fun _ => ?_
  constructor
  · intro hlt
    rcases hle.eq_or_lt with rfl | hlt'
    · exact hlt
    · exact (vb.page .small).number_lt.trans_le (Address.overruns_iff.1 (hk.here hlt'))
  · intro hlt
    omega

namespace Holding

/-- `vb` lies below the window, in a page that the span touches, and in a slot with a table. -/
def InSpan (u : Holding) (root : Frame) (va : VirtualAddress) (len : UInt32) (vb : VirtualAddress) : Prop :=
  vb.val.toNat < 0xFFC00000 ∧ (vb.page .small).number ∈ touched va len ∧
    (u.slotWord root vb.slotIndex).map Phase.ofWord = some .table

/-- What comes of unmapping the `len` bytes at `va`. -/
structure RemovesSpan (u : Holding) (root : Frame) (va : VirtualAddress) (len : UInt32) : Prop where
  answer : u.answer (.space (.unmapSpan va len)) = .ok .nothing
  removed : ∀ vb, u.InSpan root va len vb →
    (u.next (.space (.unmapSpan va len))).answer (.space (.translate vb)) = .ok .nothing
  /-- This includes all addresses of the window. -/
  others : ∀ vb, ¬u.InSpan root va len vb →
    (u.next (.space (.unmapSpan va len))).answer (.space (.translate vb)) =
      u.answer (.space (.translate vb))
  slots : ∀ i, (u.next (.space (.unmapSpan va len))).slotWord root i = u.slotWord root i
  pool : (u.next (.space (.unmapSpan va len))).session.machine.pool = u.session.machine.pool
  taken : (u.next (.space (.unmapSpan va len))).session.machine.taken = u.session.machine.taken
  returned : (u.next (.space (.unmapSpan va len))).session.machine.returned = u.session.machine.returned
  again : (u.next (.space (.unmapSpan va len))).Untouched
    ((u.next (.space (.unmapSpan va len))).next (.space (.unmapSpan va len)))

variable {u : Holding} {t : Tables} {va : VirtualAddress} {len : UInt32} {es : List Event}

theorem Backed.removesSpan (h : Backed .windows u t) (va : VirtualAddress) (hlen : 0 < len) :
    u.RemovesSpan t.root va len := by
  obtain ⟨k, hk⟩ := exists_stopsAt va.Overruns (Space.pagesInSpan va len)
  have h' := h.next_unmapSpan hk
  have hkeeps := Tables.after_unmapNth_keeps h.sound va k
  have htranslate (vb : VirtualAddress) := Tables.translate_after_unmapNth h.sound vb hk.before
  have hin (vb : VirtualAddress) : u.InSpan t.root va len vb ↔
      (vb.page .small).number ∈ Finset.Ico (va.page .small).number ((va.page .small).number + k) ∧
        vb.slotIndex ≠ selfMapSlot ∧ (t.table? vb.slotIndex).isSome := by
    rw [InSpan, mem_touched_iff_of_stopsAt hlen hk, h.table_iff, Address.slotIndex_ne_selfMap_iff,
      and_left_comm]
  refine ⟨h.answer_space _, ?_, ?_, ?_, ?_, ?_, ?_, ?_⟩
  · intro vb hvb
    rw [h'.answer_space, Tables.step, htranslate, if_pos ((hin vb).1 hvb)]
    rfl
  · intro vb hvb
    rw [h'.answer_space, h.answer_space, Tables.step, Tables.step, htranslate, if_neg (mt (hin vb).2 hvb)]
  · intro i
    have hi := h'.slotWord i
    rw [hkeeps.root] at hi
    rw [hi, h.slotWord, hkeeps.slot]
  · rw [h'.mirrors.pool, h.mirrors.pool, hkeeps.pool]
  · rw [h'.mirrors.taken, h.mirrors.taken, hkeeps.taken]
  · rw [h'.mirrors.returned, h.mirrors.returned, hkeeps.returned]
  · have h'' := h'.next_unmapSpan hk
    rw [Tables.after_unmapNth_again h.sound hk.before] at h''
    exact h'.untouched h''

/-- At every moment after boot, unmapping a span that is not empty removes its small pages. -/
theorem removesSpan_run (hb : u.Booted) (hf : u.HarmlessRun es) (hlen : 0 < len) (va : VirtualAddress) :
    ∃ root, u.session.space = some ⟨some ⟨root⟩⟩ ∧ (u.run es).RemovesSpan root va len := by
  obtain ⟨t, hs, h⟩ := hb.run_backed hf
  exact ⟨t.root, hs, h.removesSpan va hlen⟩

theorem removesSpan_run_small : ∃ root, smallBooted.session.space = some ⟨some ⟨root⟩⟩ ∧
    (smallBooted.run [.space (.releaseLarge ⟨0x800000⟩), .pool .take,
      .space (.map ⟨0x800000⟩ ⟨0x5000⟩ ⟨3⟩), .cache ⟨0x3000⟩]).RemovesSpan root ⟨0x3FF800⟩ 0x500000 := by
  refine removesSpan_run booted_small ?_ (by decide) _
  exact ⟨trivial, trivial, trivial, trivial, trivial⟩

end Holding

end Paging
