import Mathlib.Data.Finset.Image
import Mathlib.Order.Interval.Finset.Nat
import Paging.Proofs.Effects

/-!
# Spans, page by page

A span of bytes touches consecutive pages (`touched`), and a step on a span does to them what steps on
single pages do, one after the other: `Holding.after` is the holding after the first of a sequence of
steps. Mapping goes on to the first page that fails (`SpanFails`), unmapping to the top of the address
space (`Address.Overruns`); either way the first page that is left out is named by `StopsAt`.

`mapPages_ends` and `unmapPages_of_stopsAt` say this of the tables. From there, what is true of single
pages is carried along a span by induction on the number of pages that are done.
-/

namespace Paging

/-! ## The pages of a span -/

namespace Address

variable {k : AddressKind} {a : Address k} {n : Nat}

/-- The first byte of the `n`-th page after that of `a`, as long as it lies below 4 GiB. -/
def nthPage (a : Address k) (n : Nat) : Address k :=
  ⟨UInt32.ofNat ((a.page .small).base.val.toNat + 4096 * n)⟩

/-- The `n`-th page after that of `a` would lie past the top of the address space. -/
def Overruns (a : Address k) (n : Nat) : Prop :=
  UInt32.size ≤ (a.page .small).base.val.toNat + 4096 * n

theorem toNat_base_page (a : Address k) :
    (a.page .small).base.val.toNat = (a.page .small).number * 4096 := Page.toNat_base _

theorem exists_toNat {x : Nat} (hx : x < UInt32.size) : ∃ a : Address k, a.val.toNat = x :=
  ⟨⟨UInt32.ofNat x⟩, UInt32.toNat_ofNat_of_lt' hx⟩

theorem overruns_iff : a.Overruns n ↔ PageSize.small.pageCount ≤ (a.page .small).number + n := by
  show 4294967296 ≤ _ ↔ 1048576 ≤ _
  rw [toNat_base_page]
  omega

theorem not_overruns_zero (a : Address k) : ¬a.Overruns 0 := by
  rw [overruns_iff]
  exact Nat.not_le.2 (a.page .small).number_lt

theorem toNat_nthPage (h : ¬a.Overruns n) :
    (a.nthPage n).val.toNat = (a.page .small).base.val.toNat + 4096 * n := by
  rw [nthPage, UInt32.toNat_ofNat', Nat.mod_eq_of_lt (Nat.not_le.1 h)]

theorem number_nthPage (h : ¬a.Overruns n) :
    ((a.nthPage n).page .small).number = (a.page .small).number + n := by
  show (a.nthPage n).val.toNat / 4096 = _
  rw [toNat_nthPage h, toNat_base_page]
  omega

theorem base_page_nthPage (h : ¬a.Overruns n) : ((a.nthPage n).page .small).base = a.nthPage n := by
  apply Address.ext
  apply UInt32.toNat_inj.1
  rw [toNat_base_page, number_nthPage h, toNat_nthPage h, toNat_base_page]
  omega

theorem page_eq_nthPage_iff {b : Address k} (h : ¬a.Overruns n) :
    b.page .small = (a.nthPage n).page .small ↔ (b.page .small).number = (a.page .small).number + n := by
  rw [Page.ext_iff, number_nthPage h]

theorem advance?_of_overruns (h : a.Overruns n) : (a.page .small).advance? n = none :=
  dif_neg (Nat.not_lt.2 (overruns_iff.1 h))

theorem advance?_of_not_overruns (h : ¬a.Overruns n) :
    (a.page .small).advance? n = some ((a.nthPage n).page .small) := by
  have hlt := Nat.not_le.1 (mt overruns_iff.2 h)
  rw [Page.advance?, dif_pos hlt]
  exact congrArg some (Page.ext (number_nthPage h).symm)

end Address

/-- The addresses below the window. -/
theorem Address.slotIndex_ne_selfMap_iff {va : VirtualAddress} :
    va.slotIndex ≠ selfMapSlot ↔ va.val.toNat < 0xFFC00000 := by
  have h := va.val.toNat_lt
  rw [ne_eq, Fin.ext_iff]
  show ¬va.val.toNat / 4194304 = 1023 ↔ _
  omega

/-- The numbers of the pages that hold one of the `len` bytes from `va` on, counted on past 4 GiB. -/
def touched (va : VirtualAddress) (len : UInt32) : Finset Nat :=
  (Finset.range len.toNat).image fun j => (va.val.toNat + j) / 4096

section Touched

variable {va : VirtualAddress} {len : UInt32} {n : Nat}

theorem mem_touched : n ∈ touched va len ↔ ∃ j < len.toNat, (va.val.toNat + j) / 4096 = n := by
  simp [touched]

theorem touched_zero (va : VirtualAddress) : touched va 0 = ∅ := rfl

theorem toNat_pos (h : 0 < len) : 0 < len.toNat := UInt32.lt_iff_toNat_lt.1 h

theorem pagesInSpan_eq (va : VirtualAddress) (len : UInt32) :
    Space.pagesInSpan va len = (va.val.toNat % 4096 + len.toNat + 4095) / 4096 := rfl

/-- The pages of a span follow one another. -/
theorem touched_eq_Ico (h : 0 < len ∨ va.isAligned .small) : touched va len =
    Finset.Ico (va.page .small).number ((va.page .small).number + Space.pagesInSpan va len) := by
  have hpos := h.imp toNat_pos Address.isAligned_iff.1
  ext n
  rw [mem_touched, Finset.mem_Ico, pagesInSpan_eq]
  show _ ↔ va.val.toNat / 4096 ≤ n ∧ n < va.val.toNat / 4096 + _
  constructor
  · rintro ⟨j, hj, rfl⟩
    omega
  · rintro ⟨hle, hlt⟩
    -- the first byte of the span that lies in page `n`
    exact ⟨n * 4096 - va.val.toNat, by omega, by omega⟩

theorem card_touched (h : 0 < len ∨ va.isAligned .small) :
    (touched va len).card = Space.pagesInSpan va len := by
  rw [touched_eq_Ico h, Nat.card_Ico, Nat.add_sub_cancel_left]

/-- From the middle of a page, these bytes reach into a third one. -/
example : Space.pagesInSpan ⟨0x02000800⟩ 0x1801 = 3 := rfl

theorem pagesInSpan_aligned (h : va.isAligned .small) : Space.pagesInSpan va 0 = 0 := by
  rw [pagesInSpan_eq, Address.isAligned_iff.1 h]
  rfl

/-- Inside a page, an empty span counts as one page, though it touches none. -/
theorem pagesInSpan_unaligned (h : ¬va.isAligned .small) : Space.pagesInSpan va 0 = 1 := by
  rw [Address.isAligned_iff] at h
  rw [pagesInSpan_eq]
  show (_ + 0 + 4095) / 4096 = 1
  omega

/-- Each byte of a span lies at some offset of one of its pages. -/
theorem exists_page_of_byte (va : VirtualAddress) {j : Nat} (hj : j < len.toNat) :
    ∃ i < (touched va len).card, ∃ o < 4096,
      va.val.toNat + j = (va.page .small).base.val.toNat + 4096 * i + o ∧
      va.val.toNat % 4096 + j = 4096 * i + o := by
  have hlen : 0 < len := UInt32.lt_iff_toNat_lt.2 (Nat.zero_lt_of_lt hj)
  have hbase : (va.page .small).base.val.toNat = va.val.toNat / 4096 * 4096 := Address.toNat_base_page va
  rw [card_touched (Or.inl hlen), pagesInSpan_eq, hbase]
  exact ⟨(va.val.toNat + j) / 4096 - va.val.toNat / 4096, by omega, (va.val.toNat + j) % 4096, by omega,
    by omega, by omega⟩

end Touched

/-! ## The first that fails -/

/-- Of the first `n` of a sequence, the `k`-th is the first that fails; if none does, `k` is `n`. -/
structure StopsAt (Fails : Nat → Prop) (n k : Nat) : Prop where
  le : k ≤ n
  before : ∀ i < k, ¬Fails i
  here : k < n → Fails k

theorem exists_stopsAt (Fails : Nat → Prop) (n : Nat) : ∃ k, StopsAt Fails n k := by
  induction n with
  | zero => exact ⟨0, le_rfl, by simp, by simp⟩
  | succ n ih =>
    obtain ⟨k, hk⟩ := ih
    rcases hk.le.lt_or_eq with hlt | rfl
    · exact ⟨k, by omega, hk.before, fun _ => hk.here hlt⟩
    · by_cases hf : Fails k
      · exact ⟨k, by omega, hk.before, fun _ => hf⟩
      · refine ⟨k + 1, le_rfl, ?_, by simp⟩
        intro i hi
        rcases Nat.lt_succ_iff_lt_or_eq.1 hi with hi | rfl
        · exact hk.before i hi
        · exact hf

theorem StopsAt.eq_iff {Fails : Nat → Prop} {n k : Nat} (h : StopsAt Fails n k) :
    k = n ↔ ∀ i < n, ¬Fails i := by
  constructor
  · rintro rfl
    exact h.before
  · intro hnone
    by_contra hne
    have hlt : k < n := lt_of_le_of_ne h.le hne
    exact hnone k hlt (h.here hlt)

theorem stopsAt_congr {Fails Fails' : Nat → Prop} (hf : ∀ i, Fails i ↔ Fails' i) {n k : Nat} :
    StopsAt Fails n k ↔ StopsAt Fails' n k := by
  obtain rfl : Fails = Fails' := funext fun i => propext (hf i)
  rfl

/-! ## Steps one after the other -/

/-- The step on the `i`-th page of a span that is to be mapped. -/
def SpaceStep.mapNth (va : VirtualAddress) (pa : PhysicalAddress) (flags : EntryBits) (i : Nat) : SpaceStep :=
  .map (va.nthPage i) (pa.nthPage i) flags

/-- The step on the `i`-th page of a span that is to be unmapped. -/
def SpaceStep.unmapNth (va : VirtualAddress) (i : Nat) : SpaceStep := .unmap (va.nthPage i)

namespace Tables

/-- The tables after the first `k` steps of `p`. -/
def after (t : Tables) (p : Nat → SpaceStep) : Nat → Tables
  | 0 => t
  | k + 1 => ((t.after p k).step (p k)).2

/-- Page `k` of the span cannot be mapped after those before it (see `Holding.SpanFails`). -/
def SpanFails (t : Tables) (va : VirtualAddress) (pa : PhysicalAddress) (flags : EntryBits) (k : Nat) : Prop :=
  va.Overruns k ∨ pa.Overruns k ∨
    ∃ e, ((t.after (.mapNth va pa flags) k).step (.mapNth va pa flags k)).1 = .error e

variable {t : Tables} {va : VirtualAddress} {pa : PhysicalAddress} {flags : EntryBits} {p : Nat → SpaceStep}
  {n k : Nat}

theorem Sound.step (h : t.Sound) (p : SpaceStep) : (t.step p).2.Sound := by
  by_cases hr : p.InRange
  · exact (Performs.step (s := .windows) h hr (Or.inr rfl)).sound
  · cases p with
    | slotContent n | entriesOf n =>
      simp only [Tables.step]
      split <;> exact h
    | map | mapSpan | unmap | unmapSpan | releaseLarge | locate | translate | regionOf | layout =>
      exact absurd trivial hr

theorem Sound.after (h : t.Sound) (p : Nat → SpaceStep) (k : Nat) : (t.after p k).Sound := by
  induction k with
  | zero => exact h
  | succ k ih => exact ih.step (p k)

/-! ### Mapping -/

theorem step_map (t : Tables) (va : VirtualAddress) (pa : PhysicalAddress) (flags : EntryBits) :
    t.step (.map va pa flags) = (Space.done (t.map va pa flags).1, (t.map va pa flags).2) := rfl

theorem done_eq_ok_iff {r : Except MapRefusal Unit} : Space.done r = .ok .nothing ↔ r = .ok () := by
  cases r <;> simp [Space.done]

theorem done_eq_error_iff {r : Except MapRefusal Unit} {e : StepError} :
    Space.done r = .error e ↔ ∃ e', r = .error e' ∧ e = .map e' := by
  cases r with
  | ok _ => simp [Space.done]
  | error e' => simp [Space.done, eq_comm]

/-- A page that does not fail is mapped. -/
theorem map_of_not_spanFails (hk : ¬t.SpanFails va pa flags k) : ¬va.Overruns k ∧ ¬pa.Overruns k ∧
    (t.after (.mapNth va pa flags) k).map (va.nthPage k) (pa.nthPage k) flags =
      (.ok (), t.after (.mapNth va pa flags) (k + 1)) := by
  simp only [SpanFails, not_or] at hk
  obtain ⟨hv, hp, hm⟩ := hk
  refine ⟨hv, hp, Prod.ext ?_ rfl⟩
  cases hr : ((t.after (.mapNth va pa flags) k).map (va.nthPage k) (pa.nthPage k) flags).1 with
  | ok _ => rfl
  | error e =>
    refine absurd ⟨.map e, ?_⟩ hm
    rw [SpaceStep.mapNth, step_map, hr]
    rfl

/-- A page that fails, for another reason than its place, is refused. -/
theorem map_of_spanFails (hv : ¬va.Overruns k) (hp : ¬pa.Overruns k) (hk : t.SpanFails va pa flags k) :
    ∃ e, (t.after (.mapNth va pa flags) k).map (va.nthPage k) (pa.nthPage k) flags =
      (.error e, t.after (.mapNth va pa flags) k) := by
  obtain ⟨e, he⟩ := (hk.resolve_left hv).resolve_left hp
  obtain ⟨e', he', -⟩ := done_eq_error_iff.1 he
  have hm := mapEnds (t.after (.mapNth va pa flags) k) (va.nthPage k) (pa.nthPage k) flags
  exact ⟨e', Prod.ext he' (hm.of_error he').1⟩

/-- As long as no page fails, a span is mapped page by page. -/
theorem mapPages_eq_after (hk : ∀ i < k, ¬t.SpanFails va pa flags i) (n : Nat) :
    t.mapPages va (va.page .small) (pa.page .small) flags 0 (k + n) =
      (t.after (.mapNth va pa flags) k).mapPages va (va.page .small) (pa.page .small) flags k n := by
  induction k generalizing n with
  | zero => rw [Nat.zero_add]; rfl
  | succ k ih =>
    obtain ⟨hv, hp, hm⟩ := map_of_not_spanFails (hk k (Nat.lt_succ_self k))
    rw [Nat.succ_add_eq_add_succ, ih (fun i hi => hk i (Nat.lt_succ_of_lt hi)), mapPages,
      Address.advance?_of_not_overruns hv, Address.advance?_of_not_overruns hp]
    simp only [Address.base_page_nthPage hv, Address.base_page_nthPage hp, hm]

/-- How a span of `n` pages ends, by the page `k` where mapping stops. -/
inductive SpanEnds (t : Tables) (va : VirtualAddress) (pa : PhysicalAddress) (flags : EntryBits) (n : Nat) :
    Nat → Except MapRefusal Unit → Prop where
  | done : SpanEnds t va pa flags n n (.ok ())
  | overrun {k : Nat} (hk : k < n) (ho : va.Overruns k ∨ pa.Overruns k) :
    SpanEnds t va pa flags n k (.error (.notMappable va))
  | refused {k : Nat} {e : MapRefusal} (hk : k < n) (hv : ¬va.Overruns k) (hp : ¬pa.Overruns k)
    (he : ((t.after (.mapNth va pa flags) k).map (va.nthPage k) (pa.nthPage k) flags).1 = .error e) :
    SpanEnds t va pa flags n k (.error e)

theorem SpanEnds.ok_iff {r : Except MapRefusal Unit} (h : SpanEnds t va pa flags n k r) :
    r = .ok () ↔ k = n := by
  cases h with
  | done => simp
  | overrun hk | refused hk => simp [hk.ne]

theorem SpanEnds.of_overruns {r : Except MapRefusal Unit} (h : SpanEnds t va pa flags n k r) (hk : k < n)
    (hp : pa.Overruns k) : r = .error (.notMappable va) := by
  cases h with
  | done => exact absurd hk (lt_irrefl _)
  | overrun => rfl
  | refused hk hv hp' => exact absurd hp hp'

theorem SpanEnds.of_not_overruns {r : Except MapRefusal Unit} (h : SpanEnds t va pa flags n k r) (hk : k < n)
    (hv : ¬va.Overruns k) (hp : ¬pa.Overruns k) : ∃ e, r = .error e ∧
      ((t.after (.mapNth va pa flags) k).map (va.nthPage k) (pa.nthPage k) flags).1 = .error e := by
  cases h with
  | done => exact absurd hk (lt_irrefl _)
  | overrun hk ho => exact absurd ho (not_or.2 ⟨hv, hp⟩)
  | refused hk hv hp he => exact ⟨_, rfl, he⟩

theorem mapPages_ends (h : StopsAt (t.SpanFails va pa flags) n k) :
    SpanEnds t va pa flags n k (t.mapPages va (va.page .small) (pa.page .small) flags 0 n).1 ∧
      (t.mapPages va (va.page .small) (pa.page .small) flags 0 n).2 = t.after (.mapNth va pa flags) k := by
  obtain ⟨m, rfl⟩ := Nat.exists_eq_add_of_le h.le
  rw [mapPages_eq_after h.before]
  cases m with
  | zero => exact ⟨.done, rfl⟩
  | succ m =>
    have hlt : k < k + (m + 1) := Nat.lt_add_of_pos_right m.succ_pos
    rw [mapPages]
    by_cases hv : va.Overruns k
    · rw [Address.advance?_of_overruns hv]
      exact ⟨.overrun hlt (Or.inl hv), rfl⟩
    · by_cases hp : pa.Overruns k
      · rw [Address.advance?_of_overruns hp, Address.advance?_of_not_overruns hv]
        exact ⟨.overrun hlt (Or.inr hp), rfl⟩
      · obtain ⟨e, he⟩ := map_of_spanFails hv hp (h.here hlt)
        rw [Address.advance?_of_not_overruns hv, Address.advance?_of_not_overruns hp]
        simp only [Address.base_page_nthPage hv, Address.base_page_nthPage hp, he]
        exact ⟨.refused hlt hv hp (congrArg Prod.fst he), trivial⟩

/-! ### Unmapping -/

theorem unmapPages_eq_after (hk : ∀ i < k, ¬va.Overruns i) (n : Nat) :
    t.unmapPages (va.page .small) 0 (k + n) =
      (t.after (.unmapNth va) k).unmapPages (va.page .small) k n := by
  induction k generalizing n with
  | zero => rw [Nat.zero_add]; rfl
  | succ k ih =>
    have hv := hk k (Nat.lt_succ_self k)
    rw [Nat.succ_add_eq_add_succ, ih (fun i hi => hk i (Nat.lt_succ_of_lt hi)), unmapPages,
      Address.advance?_of_not_overruns hv]
    simp only [Address.base_page_nthPage hv]
    rfl

/-- A span is unmapped page by page, up to the top of the address space. -/
theorem unmapPages_of_stopsAt (h : StopsAt va.Overruns n k) :
    t.unmapPages (va.page .small) 0 n = t.after (.unmapNth va) k := by
  obtain ⟨m, rfl⟩ := Nat.exists_eq_add_of_le h.le
  rw [unmapPages_eq_after h.before]
  cases m with
  | zero => rfl
  | succ m =>
    rw [unmapPages, Address.advance?_of_overruns (h.here (Nat.lt_add_of_pos_right m.succ_pos))]

end Tables

namespace Holding

/-- The holding after the first `k` steps of `p`. -/
def after (u : Holding) (p : Nat → SpaceStep) (k : Nat) : Holding :=
  u.run ((List.range k).map fun i => .space (p i))

/-- Page `k` of the span cannot be mapped after those before it: page or frame would lie past 4 GiB, or
`map` is refused. -/
def SpanFails (u : Holding) (va : VirtualAddress) (pa : PhysicalAddress) (flags : EntryBits) (k : Nat) : Prop :=
  va.Overruns k ∨ pa.Overruns k ∨
    ∃ e, (u.after (.mapNth va pa flags) k).answer (.space (.mapNth va pa flags k)) = .error e

variable {u : Holding} {t : Tables} {p : Nat → SpaceStep} {va : VirtualAddress} {pa : PhysicalAddress}
  {flags : EntryBits} {n k : Nat}

theorem after_succ (u : Holding) (p : Nat → SpaceStep) (k : Nat) :
    u.after p (k + 1) = (u.after p k).next (.space (p k)) := by
  rw [after, List.range_succ, List.map_append, run_append]
  rfl

namespace Backed

theorem after (h : Backed .windows u t) (p : Nat → SpaceStep) (k : Nat) :
    Backed .windows (u.after p k) (t.after p k) := by
  induction k with
  | zero => exact h
  | succ k ih =>
    rw [after_succ]
    exact ih.next_space (p k)

theorem spanFails_iff (h : Backed .windows u t) : u.SpanFails va pa flags k ↔ t.SpanFails va pa flags k := by
  rw [Holding.SpanFails, (h.after _ k).answer_space]
  rfl

theorem stopsAt_iff (h : Backed .windows u t) :
    StopsAt (u.SpanFails va pa flags) n k ↔ StopsAt (t.SpanFails va pa flags) n k :=
  stopsAt_congr fun _ => h.spanFails_iff

theorem answer_mapSpan (h : Backed .windows u t) (va : VirtualAddress) (pa : PhysicalAddress) (len : UInt32)
    (flags : EntryBits) : u.answer (.space (.mapSpan va pa len flags)) = Space.done
      (t.mapPages va (va.page .small) (pa.page .small) flags 0 (Space.pagesInSpan va len)).1 :=
  h.answer_space _

/-- A span that was mapped leaves what mapping its pages leaves. -/
theorem next_mapSpan (h : Backed .windows u t) {len : UInt32}
    (hk : StopsAt (t.SpanFails va pa flags) (Space.pagesInSpan va len) k) :
    Backed .windows (u.next (.space (.mapSpan va pa len flags))) (t.after (.mapNth va pa flags) k) := by
  rw [← (Tables.mapPages_ends hk).2]
  exact h.next_space (.mapSpan va pa len flags)

/-- So does one that was unmapped. -/
theorem next_unmapSpan (h : Backed .windows u t) {len : UInt32}
    (hk : StopsAt va.Overruns (Space.pagesInSpan va len) k) :
    Backed .windows (u.next (.space (.unmapSpan va len))) (t.after (.unmapNth va) k) := by
  rw [← Tables.unmapPages_of_stopsAt hk]
  exact h.next_space (.unmapSpan va len)

end Backed

end Holding

end Paging
