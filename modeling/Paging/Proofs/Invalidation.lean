import Paging.Proofs.Spans

/-!
# Which invalidations are made

After boot, the only hardware calls are invalidations of single pages, and each step makes the ones that
its change of the tables asks for: the page that was mapped or unmapped, the window of a table that was
linked, the base of a slot that was released. `Holding.Invalidates` gives the calls of every step by how
the address stands before it; a step on a span makes the calls of its pages, one page after the other.
It holds at every moment of every harmless run, and so the whole run invalidates pages one at a time
(`invalidates_run`).

`Tables.Drops` is the list of pages that are invalidated between two tables. Each change has its list,
and lists are put together in the order of the changes (`Drops.trans`).
-/

namespace Paging

/-- The step only asks. -/
def SpaceStep.Inspects : SpaceStep → Prop
  | .translate _ | .regionOf _ | .slotContent _ | .entriesOf _ | .layout => True
  | _ => False

namespace Tables

/-- Between `t` and `t'`, the pages of `ps` were invalidated in this order, and no other call was made. -/
def Drops (t : Tables) (ps : List (Page .virtual .small)) (t' : Tables) : Prop :=
  t'.calls.toList = t.calls.toList ++ ps.map HardwareCall.invalidate

variable {t t' t'' : Tables} {va : VirtualAddress} {pa : PhysicalAddress} {flags : EntryBits}
  {create : Bool} {i : SlotIndex} {f : Frame} {pool : FramePool} {ps qs : List (Page .virtual .small)}
  {p : EntryPlace}

namespace Drops

theorem of_calls_eq (h : t'.calls = t.calls) : t.Drops [] t' := by
  rw [Drops, h, List.map_nil, List.append_nil]

theorem of_eq (h : t' = t) : t.Drops [] t' := of_calls_eq (congrArg calls h)

theorem trans (h : t.Drops ps t') (h' : t'.Drops qs t'') : t.Drops (ps ++ qs) t'' := by
  rw [Drops, h', h, List.map_append, List.append_assoc]

end Drops

/-! ## Changes -/

theorem put_drops (t : Tables) (va : VirtualAddress) (p : EntryPlace) (e : EntryBits) :
    t.Drops [va.page .small] (t.put va p e) := Array.toList_push

theorem link_drops (t : Tables) (i : SlotIndex) (f : Frame) (pool : FramePool) :
    t.Drops [(tableView i).page .small] (t.link i f pool) := Array.toList_push

theorem useEntry_drops (t : Tables) (p : EntryPlace) (w : Option EntryWrite) :
    t.Drops [] (t.useEntry p w).2 := by
  rcases w with _ | (_ | _)
  · exact .of_calls_eq rfl
  · exact .of_calls_eq rfl
  · exact .of_calls_eq rfl

/-- A mapping costs the invalidation of its page, and one more if the table is new. -/
theorem map_drops {r : Except MapRefusal Unit} (hm : MapEnds t va pa flags r t') (hr : r = .ok ()) :
    (t.table? va.slotIndex).isSome ∧ t.Drops [va.page .small] t' ∨
      (t.slot va.slotIndex).content? = none ∧
        t.Drops [(tableView va.slotIndex).page .small, va.page .small] t' := by
  cases hm with
  | refused he => cases hr
  | table hs hf => exact Or.inl ⟨Option.isSome_of_eq_some hf, put_drops ..⟩
  | created hs hc ht => exact Or.inr ⟨hc, (link_drops ..).trans (put_drops ..)⟩

/-- A found entry costs nothing, unless the table is new. -/
theorem locate_drops {r : Except MapRefusal (Option EntryPlace)} (hl : Located t va create r t')
    (hr : r = .ok (some p)) : (t.table? va.slotIndex).isSome ∧ t.Drops [] t' ∨
      (t.slot va.slotIndex).content? = none ∧ t.Drops [(tableView va.slotIndex).page .small] t' := by
  cases hl with
  | window | large | absent | noFrame => cases hr
  | table hs hf => exact Or.inl ⟨Option.isSome_of_eq_some hf, .of_eq rfl⟩
  | created hs hc ht => exact Or.inr ⟨hc, link_drops ..⟩

theorem unmap_drops (hm : t.Maps va) : t.Drops [va.page .small] (t.unmap va) := by
  rw [Drops, calls_unmap_of_maps hm]
  exact Array.toList_push

theorem releaseLarge_of_large (h : t.Sound) {q : Page .physical .large} {l : LargeLeaf}
    (hc : (t.slot va.slotIndex).content? = some (.large q l)) :
    (t.releaseLarge va).2.slot va.slotIndex = .absent ∧
      t.Drops [(SlotIndex.base va.slotIndex).page .small] (t.releaseLarge va).2 := by
  have hs := ((h.shape _).of_content?_eq_large hc).2.1
  rw [releaseLarge, if_neg hs, hc]
  refine ⟨?_, Array.toList_push⟩
  exact (slot_setSlot h.holds_root _ _ _).trans (if_pos rfl)

/-! ## Steps -/

theorem exists_drops_map (t : Tables) (va : VirtualAddress) (pa : PhysicalAddress) (flags : EntryBits) :
    ∃ ps, t.Drops ps (t.map va pa flags).2 := by
  have hm := mapEnds t va pa flags
  cases hr : (t.map va pa flags).1 with
  | error e => exact ⟨_, .of_eq (hm.of_error hr).1⟩
  | ok _ =>
    rcases map_drops hm hr with ⟨-, hd⟩ | ⟨-, hd⟩
    · exact ⟨_, hd⟩
    · exact ⟨_, hd⟩

theorem exists_drops_unmap (t : Tables) (va : VirtualAddress) : ∃ ps, t.Drops ps (t.unmap va) := by
  by_cases hm : t.Maps va
  · exact ⟨_, unmap_drops hm⟩
  · exact ⟨_, .of_eq (unmap_of_not_maps hm)⟩

theorem exists_drops_after {p : Nat → SpaceStep}
    (hp : ∀ i, ∃ ps, (t.after p i).Drops ps ((t.after p i).step (p i)).2) (k : Nat) :
    ∃ ps, t.Drops ps (t.after p k) := by
  induction k with
  | zero => exact ⟨[], .of_eq rfl⟩
  | succ k ih =>
    obtain ⟨ps, hps⟩ := ih
    obtain ⟨qs, hqs⟩ := hp k
    exact ⟨ps ++ qs, hps.trans hqs⟩

/-- Using the entry that was found costs nothing more. -/
theorem step_locate_drops (hr : (t.locate va create).1 = .ok (some p)) (hd : t.Drops ps (t.locate va create).2)
    (w : Option EntryWrite) : t.Drops ps (t.step (.locate va create w)).2 := by
  rw [step_locate_of_some hr, ← List.append_nil ps]
  exact hd.trans (useEntry_drops ..)

theorem step_of_inspects {p : SpaceStep} (hp : p.Inspects) : (t.step p).2 = t := by
  cases p with
  | translate | regionOf | layout => rfl
  | slotContent n | entriesOf n =>
    simp only [step]
    split <;> rfl
  | map | mapSpan | unmap | unmapSpan | releaseLarge | locate => exact absurd hp id

/-- No step makes any call but invalidations of single pages. -/
theorem exists_drops_step (h : t.Sound) (p : SpaceStep) : ∃ ps, t.Drops ps (t.step p).2 := by
  cases p with
  | map va pa flags => exact exists_drops_map t va pa flags
  | mapSpan va pa len flags =>
    obtain ⟨k, hk⟩ := exists_stopsAt (t.SpanFails va pa flags) (Space.pagesInSpan va len)
    have hx := exists_drops_after (fun i => exists_drops_map (t.after (.mapNth va pa flags) i) _ _ _) k
    rwa [← (mapPages_ends hk).2] at hx
  | unmap va => exact exists_drops_unmap t va
  | unmapSpan va len =>
    obtain ⟨k, hk⟩ := exists_stopsAt va.Overruns (Space.pagesInSpan va len)
    have hx := exists_drops_after (fun i => exists_drops_unmap (t.after (.unmapNth va) i) _) k
    rwa [← unmapPages_of_stopsAt hk] at hx
  | releaseLarge va =>
    by_cases hc : ∃ q l, (t.slot va.slotIndex).content? = some (.large q l)
    · obtain ⟨q, l, hc⟩ := hc
      exact ⟨_, (releaseLarge_of_large h hc).2⟩
    · push Not at hc
      exact ⟨_, .of_eq (releaseLarge_of_not_large hc)⟩
  | locate va create w =>
    have hl := located t va create
    rcases hr : (t.locate va create).1 with e | (_ | p)
    · rw [step_locate_of_error hr, hl.eq_of_error hr]
      exact ⟨_, .of_eq rfl⟩
    · rw [step_locate_of_none hr, hl.eq_of_none hr]
      exact ⟨_, .of_eq rfl⟩
    · rcases locate_drops hl hr with ⟨-, hd⟩ | ⟨-, hd⟩
      · exact ⟨_, step_locate_drops hr hd w⟩
      · exact ⟨_, step_locate_drops hr hd w⟩
  | translate | regionOf | slotContent | entriesOf | layout => exact ⟨_, .of_eq (step_of_inspects trivial)⟩

end Tables

namespace Holding

/-- The hardware calls that a step makes. -/
def callsOf (u : Holding) (p : SpaceStep) : List HardwareCall := (u.session.report (.space p)).1.calls

/-- The hardware calls of every step. `root` is the frame of the directory. -/
structure Invalidates (u : Holding) (root : Frame) : Prop where
  /-- What was called before stays recorded. -/
  kept : ∀ p, (u.next (.space p)).session.machine.calls.toList =
    u.session.machine.calls.toList ++ u.callsOf p
  map : ∀ va pa flags, u.answer (.space (.map va pa flags)) = .ok .nothing →
    (u.slotWord root va.slotIndex).map Phase.ofWord = some .table ∧
        u.callsOf (.map va pa flags) = [.invalidate (va.page .small)] ∨
      u.Absent root va ∧ u.callsOf (.map va pa flags) =
        [.invalidate ((tableView va.slotIndex).page .small), .invalidate (va.page .small)]
  create : ∀ va w e, u.answer (.space (.locate va true w)) = .ok (.entry e) →
    (u.slotWord root va.slotIndex).map Phase.ofWord = some .table ∧ u.callsOf (.locate va true w) = [] ∨
      u.Absent root va ∧
        u.callsOf (.locate va true w) = [.invalidate ((tableView va.slotIndex).page .small)]
  find : ∀ va w, u.callsOf (.locate va false w) = []
  unmap : ∀ va, u.Mapped root va → ¬(u.next (.space (.unmap va))).Mapped root va ∧
    u.callsOf (.unmap va) = [.invalidate (va.page .small)]
  unmapNothing : ∀ va, ¬u.Mapped root va → u.callsOf (.unmap va) = []
  release : ∀ va, (u.slotWord root va.slotIndex).map Phase.ofWord = some .large →
    (u.next (.space (.releaseLarge va))).Absent root va ∧
      u.callsOf (.releaseLarge va) = [.invalidate ((SlotIndex.base va.slotIndex).page .small)]
  releaseNothing : ∀ va, (u.slotWord root va.slotIndex).map Phase.ofWord ≠ some .large →
    u.callsOf (.releaseLarge va) = []
  /-- A refused step makes no call; of a span, the pages before the refused one have made theirs. -/
  refused : ∀ p, (∀ va pa len flags, p ≠ .mapSpan va pa len flags) → ∀ e,
    u.answer (.space p) = .error e → u.callsOf p = []
  inspects : ∀ p, p.Inspects → u.callsOf p = []
  mapSpan : ∀ va pa len flags, ∃ k, StopsAt (u.SpanFails va pa flags) (Space.pagesInSpan va len) k ∧
    u.callsOf (.mapSpan va pa len flags) = (List.range k).flatMap fun i =>
      (u.after (.mapNth va pa flags) i).callsOf (.mapNth va pa flags i)
  unmapSpan : ∀ va len, ∃ k, StopsAt va.Overruns (Space.pagesInSpan va len) k ∧
    u.callsOf (.unmapSpan va len) = (List.range k).flatMap fun i =>
      (u.after (.unmapNth va) i).callsOf (.unmapNth va i)

variable {u : Holding} {t : Tables} {p : SpaceStep} {ps : List (Page .virtual .small)} {va : VirtualAddress}
  {pa : PhysicalAddress} {flags : EntryBits} {es : List Event}

namespace Backed

theorem callsOf_eq (h : Backed .windows u t) (p : SpaceStep) (hd : t.Drops ps (t.step p).2) :
    u.callsOf p = ps.map HardwareCall.invalidate := by
  show (u.next (.space p)).session.machine.calls.toList.drop u.session.machine.calls.size = _
  rw [(h.next_space p).mirrors.calls, h.mirrors.calls, hd, ← Array.length_toList, List.drop_left]

theorem callsOf_eq_nil (h : Backed .windows u t) (p : SpaceStep) (hsame : (t.step p).2 = t) :
    u.callsOf p = [] :=
  h.callsOf_eq p (.of_eq hsame)

theorem calls_next_space (h : Backed .windows u t) (p : SpaceStep) :
    (u.next (.space p)).session.machine.calls.toList = u.session.machine.calls.toList ++ u.callsOf p := by
  obtain ⟨ps, hd⟩ := Tables.exists_drops_step h.sound p
  rw [h.callsOf_eq p hd, (h.next_space p).mirrors.calls, h.mirrors.calls, hd]

theorem root_next_space (h : Backed .windows u t) (p : SpaceStep) : (t.step p).2.root = t.root :=
  (h.step_space (Or.inr rfl)).2.1.root

/-! ## Steps on one address -/

theorem callsOf_map (h : Backed .windows u t) (ha : u.answer (.space (.map va pa flags)) = .ok .nothing) :
    (u.slotWord t.root va.slotIndex).map Phase.ofWord = some .table ∧
        u.callsOf (.map va pa flags) = [.invalidate (va.page .small)] ∨
      u.Absent t.root va ∧ u.callsOf (.map va pa flags) =
        [.invalidate ((tableView va.slotIndex).page .small), .invalidate (va.page .small)] := by
  rw [h.answer_space, Tables.step_map, Tables.done_eq_ok_iff] at ha
  rw [h.table_iff, h.absent_iff]
  rcases Tables.map_drops (Tables.mapEnds t va pa flags) ha with ⟨hf, hd⟩ | ⟨hc, hd⟩
  · have hcalls := h.callsOf_eq (.map va pa flags) hd
    exact Or.inl ⟨hf, hcalls⟩
  · have hcalls := h.callsOf_eq (.map va pa flags) hd
    exact Or.inr ⟨hc, hcalls⟩

theorem callsOf_create (h : Backed .windows u t) {w : Option EntryWrite} {e : EntryBits}
    (ha : u.answer (.space (.locate va true w)) = .ok (.entry e)) :
    (u.slotWord t.root va.slotIndex).map Phase.ofWord = some .table ∧ u.callsOf (.locate va true w) = [] ∨
      u.Absent t.root va ∧
        u.callsOf (.locate va true w) = [.invalidate ((tableView va.slotIndex).page .small)] := by
  rw [h.answer_space] at ha
  rw [h.table_iff, h.absent_iff]
  have hl := Tables.located t va true
  rcases hr : (t.locate va true).1 with e' | (_ | p)
  · rw [Tables.step_locate_of_error hr] at ha
    cases ha
  · exact absurd hr hl.ne_none
  · rcases Tables.locate_drops hl hr with ⟨hf, hd⟩ | ⟨hc, hd⟩
    · have hcalls := h.callsOf_eq _ (Tables.step_locate_drops hr hd w)
      exact Or.inl ⟨hf, hcalls⟩
    · have hcalls := h.callsOf_eq _ (Tables.step_locate_drops hr hd w)
      exact Or.inr ⟨hc, hcalls⟩

theorem callsOf_find (h : Backed .windows u t) (va : VirtualAddress) (w : Option EntryWrite) :
    u.callsOf (.locate va false w) = [] := by
  have hsame := Tables.locate_false t va
  rcases hr : (t.locate va false).1 with e | (_ | p)
  · exact h.callsOf_eq_nil _ (by rw [Tables.step_locate_of_error hr, hsame])
  · exact h.callsOf_eq_nil _ (by rw [Tables.step_locate_of_none hr, hsame])
  · exact h.callsOf_eq _ (Tables.step_locate_drops hr (.of_eq hsame) w)

theorem callsOf_unmap (h : Backed .windows u t) (hm : u.Mapped t.root va) :
    ¬(u.next (.space (.unmap va))).Mapped t.root va ∧
      u.callsOf (.unmap va) = [.invalidate (va.page .small)] := by
  have hcalls := h.callsOf_eq (.unmap va) (Tables.unmap_drops (h.mapped_iff.1 hm))
  refine ⟨?_, hcalls⟩
  rw [← h.root_next_space (.unmap va), (h.next_space _).mapped_iff]
  exact Tables.not_maps_unmap h.sound va

theorem large_iff (h : Backed .windows u t) {i : SlotIndex} :
    (u.slotWord t.root i).map Phase.ofWord = some .large ↔ ∃ q l, (t.slot i).content? = some (.large q l) := by
  rw [h.phase, Option.some.injEq, Phase.ofWord_eq_large_iff]

theorem callsOf_release (h : Backed .windows u t)
    (hlarge : (u.slotWord t.root va.slotIndex).map Phase.ofWord = some .large) :
    (u.next (.space (.releaseLarge va))).Absent t.root va ∧
      u.callsOf (.releaseLarge va) = [.invalidate ((SlotIndex.base va.slotIndex).page .small)] := by
  obtain ⟨q, l, hc⟩ := h.large_iff.1 hlarge
  obtain ⟨hslot, hd⟩ := Tables.releaseLarge_of_large h.sound hc
  have hcalls := h.callsOf_eq (.releaseLarge va) hd
  refine ⟨?_, hcalls⟩
  rw [← h.root_next_space (.releaseLarge va), (h.next_space _).absent_iff]
  exact (congrArg DirEntry.content? hslot).trans DirEntry.content?_absent

/-! ## Steps on a span -/

theorem calls_after (h : Backed .windows u t) (p : Nat → SpaceStep) (k : Nat) :
    (u.after p k).session.machine.calls.toList = u.session.machine.calls.toList ++
      (List.range k).flatMap fun i => (u.after p i).callsOf (p i) := by
  induction k with
  | zero => exact (List.append_nil _).symm
  | succ k ih =>
    rw [after_succ, (h.after p k).calls_next_space, ih, List.range_succ, List.flatMap_append,
      List.flatMap_singleton, List.append_assoc]

/-- A step that leaves what the first `k` steps of `q` leave makes their calls. -/
theorem callsOf_eq_after (h : Backed .windows u t) {q : Nat → SpaceStep} {k : Nat}
    (h' : Backed .windows (u.next (.space p)) (t.after q k)) :
    u.callsOf p = (List.range k).flatMap fun i => (u.after q i).callsOf (q i) := by
  have hcalls := h.calls_after q k
  rw [(h.after q k).mirrors.calls, ← h'.mirrors.calls, h.calls_next_space] at hcalls
  exact List.append_cancel_left hcalls

theorem invalidates (h : Backed .windows u t) : u.Invalidates t.root where
  kept := h.calls_next_space
  map _ _ _ := h.callsOf_map
  create _ _ _ := h.callsOf_create
  find := h.callsOf_find
  unmap _ := h.callsOf_unmap
  unmapNothing va hm := h.callsOf_eq_nil (.unmap va) (Tables.unmap_of_not_maps (mt h.mapped_iff.2 hm))
  release _ := h.callsOf_release
  releaseNothing va hlarge := by
    rw [ne_eq, h.large_iff] at hlarge
    push Not at hlarge
    exact h.callsOf_eq_nil (.releaseLarge va) (Tables.releaseLarge_of_not_large hlarge)
  refused p hp e he := by
    rw [h.answer_space] at he
    exact h.callsOf_eq_nil p (Tables.step_of_error hp he)
  inspects p hp := h.callsOf_eq_nil p (Tables.step_of_inspects hp)
  mapSpan va pa len flags := by
    obtain ⟨k, hk⟩ := exists_stopsAt (t.SpanFails va pa flags) (Space.pagesInSpan va len)
    exact ⟨k, h.stopsAt_iff.2 hk, h.callsOf_eq_after (h.next_mapSpan hk)⟩
  unmapSpan va len := by
    obtain ⟨k, hk⟩ := exists_stopsAt va.Overruns (Space.pagesInSpan va len)
    exact ⟨k, hk, h.callsOf_eq_after (h.next_unmapSpan hk)⟩

/-! ## Runs -/

theorem calls_next (h : Backed .windows u t) {e : Event} (hf : u.Harmless e) :
    ∃ ps : List (Page .virtual .small), (u.next e).session.machine.calls.toList =
      u.session.machine.calls.toList ++ ps.map HardwareCall.invalidate := by
  cases e with
  | space p =>
    obtain ⟨ps, hd⟩ := Tables.exists_drops_step h.sound p
    exact ⟨ps, by rw [h.calls_next_space, h.callsOf_eq p hd]⟩
  | pool p =>
    refine ⟨[], ?_⟩
    rw [(h.step_pool hf).mirrors.calls, h.mirrors.calls, List.map_nil, List.append_nil]
  | cache va =>
    refine ⟨[], ?_⟩
    have hm := h.mirrors.cacheWalk h.sound va
    show (Machine.cacheWalk va u.session.machine).calls.toList = _
    rw [hm.calls, h.mirrors.calls, List.map_nil, List.append_nil]

theorem calls_run (h : Backed .windows u t) (hf : u.HarmlessRun es) :
    ∃ ps : List (Page .virtual .small), (u.run es).session.machine.calls.toList =
      u.session.machine.calls.toList ++ ps.map HardwareCall.invalidate := by
  induction es generalizing u t with
  | nil => exact ⟨[], by rw [List.map_nil, List.append_nil]; rfl⟩
  | cons e es ih =>
    obtain ⟨ps, hps⟩ := h.calls_next hf.1
    obtain ⟨t', -, h'⟩ := h.next hf.1 fun _ _ => Or.inr rfl
    obtain ⟨qs, hqs⟩ := ih h' hf.2
    refine ⟨ps ++ qs, hqs.trans ?_⟩
    rw [hps, List.map_append, List.append_assoc]

end Backed

/-- At every moment after boot, the calls of a step are the invalidations that are due; and over the whole
run there is no other call. -/
theorem invalidates_run (hb : u.Booted) (hf : u.HarmlessRun es) :
    ∃ root, u.session.space = some ⟨some ⟨root⟩⟩ ∧ (u.run es).Invalidates root ∧
      ∃ ps : List (Page .virtual .small), (u.run es).session.machine.calls.toList =
        u.session.machine.calls.toList ++ ps.map HardwareCall.invalidate := by
  obtain ⟨_, _, _, _, -, -, -, h⟩ := hb.backed .windows
  obtain ⟨t, hs, h'⟩ := hb.run_backed hf
  exact ⟨t.root, hs, h'.invalidates, h.calls_run hf⟩

theorem invalidates_run_small : ∃ root, smallBooted.session.space = some ⟨some ⟨root⟩⟩ ∧
    (smallBooted.run [.space (.releaseLarge ⟨0x800000⟩), .pool .take,
      .space (.mapSpan ⟨0x7FF000⟩ ⟨0x5000⟩ 0x3000 ⟨3⟩), .cache ⟨0x3000⟩]).Invalidates root ∧
    ∃ ps : List (Page .virtual .small),
      (smallBooted.run [.space (.releaseLarge ⟨0x800000⟩), .pool .take,
        .space (.mapSpan ⟨0x7FF000⟩ ⟨0x5000⟩ 0x3000 ⟨3⟩), .cache ⟨0x3000⟩]).session.machine.calls.toList =
      smallBooted.session.machine.calls.toList ++ ps.map HardwareCall.invalidate :=
  invalidates_run booted_small ⟨trivial, trivial, trivial, trivial, trivial⟩

end Holding

end Paging
