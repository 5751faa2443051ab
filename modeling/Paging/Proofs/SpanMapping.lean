import Paging.Proofs.Spans

/-!
# Mapping a span

A span is mapped page by page up to the first page that fails. `Holding.MapsSpan` says what comes of it:
the answer, the pages before the failing one at their frames, and everything else as it was. It holds of
every span that is not empty, at every moment of every harmless run (`mapsSpan_run`).

The induction is `translate_after_mapNth`: after `k` pages, an address of the first `k` pages translates
to its place in the frames, and any other below the window as before. That no page wraps past 4 GiB comes
from the window: the last page that can be mapped lies below it, and hence the next one below 4 GiB
(`not_overruns_of_stopsAt`).
-/

namespace Paging

/-- An address at its offset in the `n`-th of a row of pages. -/
theorem Address.toNat_join_nthPage {pa : PhysicalAddress} {n : Nat} (h : ¬pa.Overruns n)
    (vb : VirtualAddress) : (((pa.nthPage n).page .small).join (vb.offset .small)).val.toNat =
      (pa.page .small).base.val.toNat + 4096 * n + vb.val.toNat % 4096 := by
  rw [Page.toNat_join, number_nthPage h, toNat_base_page]
  show _ * 4096 + vb.val.toNat % 4096 = _
  omega

namespace Tables

variable {t : Tables} {va vb : VirtualAddress} {pa : PhysicalAddress} {flags : EntryBits} {n k : Nat}

/-- A page that does not fail lies below the window. -/
theorem below_window_of_not_spanFails (hk : ¬t.SpanFails va pa flags k) :
    (va.page .small).base.val.toNat + 4096 * k + 4096 ≤ 0xFFC00000 := by
  obtain ⟨hv, -, hm⟩ := map_of_not_spanFails hk
  have hs : (va.nthPage k).slotIndex ≠ selfMapSlot := by
    intro hs
    rw [map_window hs] at hm
    cases hm
  rw [Address.slotIndex_ne_selfMap_iff, Address.toNat_nthPage hv] at hs
  have hbase := Address.toNat_base_page va
  omega

/-- The first page that fails lies below 4 GiB, since those before it lie below the window. -/
theorem not_overruns_of_stopsAt (h : StopsAt (t.SpanFails va pa flags) n k) : ¬va.Overruns k := by
  cases k with
  | zero => exact Address.not_overruns_zero va
  | succ k =>
    have hle := below_window_of_not_spanFails (h.before k (Nat.lt_succ_self k))
    show ¬4294967296 ≤ _
    omega

/-- What the first `k` pages of a span are mapped to, and that nothing else is. -/
theorem translate_after_mapNth (h : t.Sound) (hb : vb.slotIndex ≠ selfMapSlot)
    (hk : ∀ i < k, ¬t.SpanFails va pa flags i) :
    (∀ i < k, (vb.page .small).number = (va.page .small).number + i →
      (t.after (.mapNth va pa flags) k).translate vb =
        some (((pa.nthPage i).page .small).join (vb.offset .small), ⟨flags.bits &&& 0xFFF ||| 1⟩)) ∧
    ((∀ i < k, (vb.page .small).number ≠ (va.page .small).number + i) →
      (t.after (.mapNth va pa flags) k).translate vb = t.translate vb) := by
  induction k with
  | zero => exact ⟨by simp, fun _ => rfl⟩
  | succ k ih =>
    obtain ⟨ihmap, ihother⟩ := ih fun i hi => hk i (Nat.lt_succ_of_lt hi)
    obtain ⟨hv, -, hm⟩ := map_of_not_spanFails (hk k (Nat.lt_succ_self k))
    have hends := mapEnds (t.after (.mapNth va pa flags) k) (va.nthPage k) (pa.nthPage k) flags
    rw [hm] at hends
    have hstep := hends.translate (h.after _ k) rfl hb
    simp only [Address.page_eq_nthPage_iff hv] at hstep
    rw [hstep]
    constructor
    · intro i hi hn
      rcases Nat.lt_succ_iff_lt_or_eq.1 hi with hlt | rfl
      · rw [if_neg (by omega)]
        exact ihmap i hlt hn
      · rw [if_pos hn]
    · intro hn
      rw [if_neg (hn k (Nat.lt_succ_self k))]
      exact ihother fun i hi => hn i (Nat.lt_succ_of_lt hi)

end Tables

namespace Holding

/-- Address `x` translates to address `y`, with the flags asked for and `present`. -/
def MapsTo (u : Holding) (x y : Nat) (flags : EntryBits) : Prop :=
  ∃ (va : VirtualAddress) (pa : PhysicalAddress), va.val.toNat = x ∧ pa.val.toNat = y ∧
    u.answer (.space (.translate va)) = .ok (.translation pa ⟨flags.bits &&& 0xFFF ||| 1⟩)

/-- What comes of mapping the `len` bytes at `va` to those from the page of `pa` on, page `k` being the
first that fails. If none does, `k` is the number of pages. -/
structure MapsSpan (u : Holding) (va : VirtualAddress) (pa : PhysicalAddress) (len : UInt32)
    (flags : EntryBits) (k : Nat) : Prop where
  stops : StopsAt (u.SpanFails va pa flags) (touched va len).card k
  ok_iff : u.answer (.space (.mapSpan va pa len flags)) = .ok .nothing ↔
    ∀ i < (touched va len).card, ¬u.SpanFails va pa flags i
  bytes : u.answer (.space (.mapSpan va pa len flags)) = .ok .nothing → ∀ j < len.toNat,
    (u.next (.space (.mapSpan va pa len flags))).MapsTo (va.val.toNat + j)
      ((pa.page .small).base.val.toNat + va.val.toNat % 4096 + j) flags
  pages : ∀ i < k, ∀ o < 4096, (u.next (.space (.mapSpan va pa len flags))).MapsTo
    ((va.page .small).base.val.toNat + 4096 * i + o) ((pa.page .small).base.val.toNat + 4096 * i + o) flags
  /-- No other page below the window notices. -/
  others : ∀ vb : VirtualAddress, vb.val.toNat < 0xFFC00000 →
    (∀ i < k, (vb.page .small).number ≠ (va.page .small).number + i) →
      (u.next (.space (.mapSpan va pa len flags))).answer (.space (.translate vb)) =
        u.answer (.space (.translate vb))
  /-- The failing page itself lies below 4 GiB, whatever its frame. -/
  below : ¬va.Overruns k
  /-- For a frame past 4 GiB, the whole span is refused. -/
  overrun : k < (touched va len).card → pa.Overruns k →
    u.answer (.space (.mapSpan va pa len flags)) = .error (.map (.notMappable va))
  /-- Else the answer is that of `map` for the page alone. -/
  refused : k < (touched va len).card → ¬pa.Overruns k →
    u.answer (.space (.mapSpan va pa len flags)) =
        (u.after (.mapNth va pa flags) k).answer (.space (.mapNth va pa flags k)) ∧
      (u.answer (.space (.mapSpan va pa len flags)) = .error (.map .noFrame) ∨
        u.answer (.space (.mapSpan va pa len flags)) = .error (.map (.notMappable (va.nthPage k))))
  /-- A span that reaches into the window is never mapped as a whole. -/
  window : (∃ j < len.toNat, 0xFFC00000 ≤ va.val.toNat + j) →
    u.answer (.space (.mapSpan va pa len flags)) ≠ .ok .nothing

variable {u : Holding} {t : Tables} {va : VirtualAddress} {pa : PhysicalAddress} {len : UInt32}
  {flags : EntryBits} {n k : Nat} {es : List Event}

namespace Backed

/-- The bytes of page `i` are mapped in order to those of frame `i`. -/
theorem mapsTo_after (h : Backed .windows u t) (hk : ∀ i < k, ¬t.SpanFails va pa flags i)
    {v : Holding} (h' : Backed .windows v (t.after (.mapNth va pa flags) k)) {i o : Nat} (hi : i < k)
    (ho : o < 4096) : v.MapsTo ((va.page .small).base.val.toNat + 4096 * i + o)
      ((pa.page .small).base.val.toNat + 4096 * i + o) flags := by
  have hle := Tables.below_window_of_not_spanFails (hk i hi)
  have hbase := Address.toNat_base_page va
  have hx : (va.page .small).base.val.toNat + 4096 * i + o < UInt32.size := by
    show _ < 4294967296
    omega
  obtain ⟨vb, hvb⟩ := Address.exists_toNat (k := .virtual) hx
  have hb : vb.slotIndex ≠ selfMapSlot := by
    rw [Address.slotIndex_ne_selfMap_iff, hvb]
    omega
  have hpage : (vb.page .small).number = (va.page .small).number + i := by
    show vb.val.toNat / 4096 = _
    omega
  refine ⟨vb, ((pa.nthPage i).page .small).join (vb.offset .small), hvb, ?_, ?_⟩
  · rw [Address.toNat_join_nthPage (Tables.map_of_not_spanFails (hk i hi)).2.1, hvb]
    omega
  · rw [h'.answer_space, Tables.step, (Tables.translate_after_mapNth h.sound hb hk).1 i hi hpage]
    rfl

theorem mapsSpan (h : Backed .windows u t) (hlen : 0 < len) (va : VirtualAddress) (pa : PhysicalAddress)
    (flags : EntryBits) : ∃ k, u.MapsSpan va pa len flags k := by
  have hcard : (touched va len).card = Space.pagesInSpan va len := card_touched (Or.inl hlen)
  obtain ⟨k, hk⟩ := exists_stopsAt (t.SpanFails va pa flags) (touched va len).card
  have hbelow := Tables.not_overruns_of_stopsAt hk
  have hends := (Tables.mapPages_ends hk).1
  have h' := h.next_mapSpan (hcard ▸ hk)
  have hanswer := h.answer_mapSpan va pa len flags
  rw [← hcard] at hanswer
  have hok : u.answer (.space (.mapSpan va pa len flags)) = .ok .nothing ↔ k = (touched va len).card := by
    rw [hanswer, Tables.done_eq_ok_iff, hends.ok_iff]
  have hpages (i : Nat) (hi : i < k) (o : Nat) (ho : o < 4096) := h.mapsTo_after hk.before h' hi ho
  generalize (t.mapPages va (va.page .small) (pa.page .small) flags 0 (touched va len).card).1 = r
    at hends hanswer
  refine ⟨k, h.stopsAt_iff.2 hk, ?_, ?_, hpages, ?_, hbelow, ?_, ?_, ?_⟩
  · rw [hok, (h.stopsAt_iff.2 hk).eq_iff]
  · intro ha j hj
    obtain ⟨i, hi, o, ho, hx, hy⟩ := exists_page_of_byte va hj
    rw [hx, Nat.add_assoc _ _ j, hy, ← Nat.add_assoc]
    exact hpages i (hok.1 ha ▸ hi) o ho
  · intro vb hvb hn
    have hb := Address.slotIndex_ne_selfMap_iff.2 hvb
    rw [h.answer_space, h'.answer_space, Tables.step, Tables.step,
      (Tables.translate_after_mapNth h.sound hb hk.before).2 hn]
  · intro hlt hp
    rw [hanswer, hends.of_overruns hlt hp]
    rfl
  · intro hlt hp
    obtain ⟨e, rfl, he⟩ := hends.of_not_overruns hlt hbelow hp
    have hm := Tables.mapEnds (t.after (.mapNth va pa flags) k) (va.nthPage k) (pa.nthPage k) flags
    rw [hanswer, (h.after _ k).answer_space, SpaceStep.mapNth, Tables.step_map, he]
    refine ⟨rfl, ?_⟩
    rcases (hm.of_error he).2 with rfl | rfl
    · exact Or.inl rfl
    · exact Or.inr rfl
  · rintro ⟨j, hj, hwindow⟩ ha
    -- the page of that byte would have been mapped, and hence lie below the window
    obtain ⟨i, hi, o, ho, hx, -⟩ := exists_page_of_byte va hj
    have hle := Tables.below_window_of_not_spanFails (hk.before i (hok.1 ha ▸ hi))
    omega

end Backed

/-- At every moment after boot, a span that is not empty is mapped up to its first page that fails. -/
theorem mapsSpan_run (hb : u.Booted) (hf : u.HarmlessRun es) (hlen : 0 < len) (va : VirtualAddress)
    (pa : PhysicalAddress) (flags : EntryBits) : ∃ k, (u.run es).MapsSpan va pa len flags k := by
  obtain ⟨t, -, h⟩ := hb.run_backed hf
  exact h.mapsSpan hlen va pa flags

theorem mapsSpan_run_small : ∃ k, (smallBooted.run [.space (.releaseLarge ⟨0x800000⟩), .pool .take,
    .cache ⟨0x3000⟩]).MapsSpan ⟨0x3FE800⟩ ⟨0x12345⟩ 0x3000 ⟨0x7⟩ k := by
  refine mapsSpan_run booted_small ?_ (by decide) _ _ _
  exact ⟨trivial, trivial, trivial, trivial⟩

end Holding

end Paging
