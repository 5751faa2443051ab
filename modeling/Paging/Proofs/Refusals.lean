import Paging.Proofs.LifeCycle
import Paging.Proofs.Structure

/-!
# Refusals are exact, and leave nothing behind

Whether a step on one address is refused, and with which error, is in the word of the slot and in the
number of free frames alone. `Holding.Exact` says so for every step that can be refused: each of its
answers comes exactly under its own condition (`Holding.Ends`). `Holding.Atomic` says what is left of a
step that was refused or found nothing to do: memory, the pool, the directory and the hardware calls are
the same. Both hold at every moment of every harmless run (`refusals_run`).
-/

namespace Paging

namespace Tables

variable {t t' : Tables} {va : VirtualAddress} {create : Bool} {p : EntryPlace} {e : MapRefusal}

/-! ## Answers by how the lookup ends -/

theorem step_map_of_error (h : (t.locate va true).1 = .error e) (pa : PhysicalAddress) (flags : EntryBits) :
    t.step (.map va pa flags) = (.error (.map e), (t.locate va true).2) := by
  simp only [step, map]
  generalize t.locate va true = r at h ⊢
  obtain ⟨r, t'⟩ := r
  cases h; rfl

theorem step_map_of_some (h : (t.locate va true).1 = .ok (some p)) (pa : PhysicalAddress) (flags : EntryBits) :
    (t.step (.map va pa flags)).1 = .ok .nothing := by
  simp only [step, map]
  generalize t.locate va true = r at h ⊢
  obtain ⟨r, t'⟩ := r
  cases h; rfl

theorem step_locate_of_error (h : (t.locate va create).1 = .error e) (w : Option EntryWrite) :
    t.step (.locate va create w) = (.error (.map e), (t.locate va create).2) := by
  simp only [step]
  generalize t.locate va create = r at h ⊢
  obtain ⟨r, t'⟩ := r
  cases h; rfl

theorem step_locate_of_none (h : (t.locate va create).1 = .ok none) (w : Option EntryWrite) :
    t.step (.locate va create w) = (.ok .nothing, (t.locate va create).2) := by
  simp only [step]
  generalize t.locate va create = r at h ⊢
  obtain ⟨r, t'⟩ := r
  cases h; rfl

theorem step_locate_of_some (h : (t.locate va create).1 = .ok (some p)) (w : Option EntryWrite) :
    t.step (.locate va create w) =
      (.ok (.entry ((t.locate va create).2.useEntry p w).1), ((t.locate va create).2.useEntry p w).2) := by
  simp only [step]
  generalize t.locate va create = r at h ⊢
  obtain ⟨r, t'⟩ := r
  cases h; rfl

/-! ## Steps that change nothing -/

theorem releaseLarge_of_error (h : (t.releaseLarge va).1 = .error e) : (t.releaseLarge va).2 = t := by
  by_cases hs : va.slotIndex = selfMapSlot
  · rw [releaseLarge, if_pos hs]
  · rw [releaseLarge, if_neg hs] at h ⊢
    cases hc : (t.slot va.slotIndex).content? with
    | none => rfl
    | some c =>
      cases c with
      | table f l => rfl
      | large q l =>
        rw [hc] at h
        cases h

theorem releaseLarge_of_not_large (hc : ∀ q l, (t.slot va.slotIndex).content? ≠ some (.large q l)) :
    (t.releaseLarge va).2 = t := by
  unfold releaseLarge
  split
  · rfl
  · split
    · rfl
    · rfl
    · rename_i q l hl
      exact absurd hl (hc q l)

theorem releaseLarge_of_absent (hc : (t.slot va.slotIndex).content? = none) : (t.releaseLarge va).2 = t := by
  apply releaseLarge_of_not_large
  simp [hc]

/-- A refused step changes nothing; only of a span, some pages may be mapped by then. -/
theorem step_of_error {p : SpaceStep} (hp : ∀ va pa len flags, p ≠ .mapSpan va pa len flags)
    {e : StepError} (h : (t.step p).1 = .error e) : (t.step p).2 = t := by
  cases p with
  | map va pa flags =>
    have hl := located t va true
    rcases hr : (t.locate va true).1 with e' | (_ | p)
    · rw [step_map_of_error hr]
      exact hl.eq_of_error hr
    · exact absurd hr hl.ne_none
    · rw [step_map_of_some hr] at h
      cases h
  | mapSpan va pa len flags => exact absurd rfl (hp va pa len flags)
  | releaseLarge va =>
    cases hr : (t.releaseLarge va).1 with
    | error e' => exact releaseLarge_of_error hr
    | ok _ =>
      simp only [step, hr, Space.done] at h
      cases h
  | locate va create w =>
    rcases hr : (t.locate va create).1 with e' | (_ | p)
    · rw [step_locate_of_error hr]
      exact (located t va create).eq_of_error hr
    · rw [step_locate_of_none hr] at h
      cases h
    · rw [step_locate_of_some hr] at h
      cases h
  | slotContent n | entriesOf n =>
    simp only [step]
    split <;> rfl
  | unmap | unmapSpan | translate | regionOf | layout => simp [step] at h

/-- The page of `va` is mapped through a table. -/
def Maps (t : Tables) (va : VirtualAddress) : Prop :=
  va.slotIndex ≠ selfMapSlot ∧ ∃ f, t.table? va.slotIndex = some f ∧ (t.entry f va.entryIndex).present = true

theorem unmap_of_not_maps (h : ¬t.Maps va) : t.unmap va = t := by
  have hl := located t va false
  unfold unmap
  generalize t.locate va false = r at hl ⊢
  obtain ⟨r, t'⟩ := r
  cases hl with
  | window | large | absent => rfl
  | table hs hf => exact if_neg fun hpresent => h ⟨hs, _, hf, hpresent⟩

/-- An entry that is removed costs a hardware call. -/
theorem calls_unmap_of_maps (h : t.Maps va) :
    (t.unmap va).calls = t.calls.push (.invalidate (va.page .small)) := by
  obtain ⟨hs, f, hf, hpresent⟩ := h
  rw [unmap, locate_of_table hs hf]
  simp only [if_pos hpresent]
  rfl

end Tables

namespace Holding

/-! ## Conditions, in raw words -/

/-- The address takes no 4 KiB page: it lies in the window, or in a region of 4 MiB. -/
def Blocked (u : Holding) (root : Frame) (va : VirtualAddress) : Prop :=
  va.slotIndex = selfMapSlot ∨ (u.slotWord root va.slotIndex).map Phase.ofWord = some .large

/-- The slot of the address is absent. -/
def Absent (u : Holding) (root : Frame) (va : VirtualAddress) : Prop :=
  (u.slotWord root va.slotIndex).map Phase.ofWord = some .absent

/-- The address needs a table, and there is no frame for it. -/
def Exhausted (u : Holding) (root : Frame) (va : VirtualAddress) : Prop :=
  u.Absent root va ∧ u.session.machine.pool.free = 0

/-- The page of the address is mapped through a table. -/
def Mapped (u : Holding) (root : Frame) (va : VirtualAddress) : Prop :=
  va.slotIndex ≠ selfMapSlot ∧ ∃ f w, u.session.machine.ram.Links root va.slotIndex f ∧
    u.session.machine.ram.word? f va.entryIndex = some w ∧ w &&& 0x01 ≠ 0

/-- The answer `a` of a step on `va`: a refusal of `va` where the address takes no page, `x` where
something is missing, and one of `Done` in all other cases. -/
structure Ends (u : Holding) (root : Frame) (va : VirtualAddress) (Lacks : Prop)
    (x : Except StepError Answer) (Done : Answer → Prop) (a : Except StepError Answer) : Prop where
  notMappable : a = .error (.map (.notMappable va)) ↔ u.Blocked root va
  missing : a = x ↔ Lacks
  done : (∃ r, a = .ok r ∧ Done r) ↔ ¬u.Blocked root va ∧ ¬Lacks

/-- When steps on one address are refused, and what they answer else. -/
structure Exact (u : Holding) (root : Frame) : Prop where
  map : ∀ va pa flags, u.Ends root va (u.Exhausted root va) (.error (.map .noFrame)) (· = .nothing)
    (u.session.step (.space (.map va pa flags))).1
  create : ∀ va w, u.Ends root va (u.Exhausted root va) (.error (.map .noFrame)) (∃ e, · = .entry e)
    (u.session.step (.space (.locate va true w))).1
  /-- `map` gets an entry from its lookup, or passes on why there is none. -/
  entry : ∀ va m, Space.locate va true u.session.machine ≠ .ok (.ok none) m
  find : ∀ va w, u.Ends root va (u.Absent root va) (.ok .nothing) (∃ e, · = .entry e)
    (u.session.step (.space (.locate va false w))).1
  release : ∀ va,
    ((u.session.step (.space (.releaseLarge va))).1 = .error (.map (.notMappable va)) ↔
      va.slotIndex = selfMapSlot ∨ (u.slotWord root va.slotIndex).map Phase.ofWord = some .table) ∧
    ((u.session.step (.space (.releaseLarge va))).1 = .ok .nothing ↔ va.slotIndex ≠ selfMapSlot ∧
      (u.slotWord root va.slotIndex).map Phase.ofWord ≠ some .table)

/-- `v` has the memory, the pool, the directory and the hardware calls of `u`. -/
structure Untouched (u v : Holding) : Prop where
  ram : v.session.machine.ram = u.session.machine.ram
  pool : v.session.machine.pool = u.session.machine.pool
  cr3 : v.session.machine.cpu.root = u.session.machine.cpu.root
  current : v.session.space = u.session.space
  calls : v.session.machine.calls = u.session.machine.calls
  taken : v.session.machine.taken = u.session.machine.taken
  returned : v.session.machine.returned = u.session.machine.returned

/-- Which steps leave everything as it was. -/
structure Atomic (u : Holding) (root : Frame) : Prop where
  /-- A refused step; of a span, the pages before the refused one are mapped. -/
  refused : ∀ p, (∀ va pa len flags, p ≠ .mapSpan va pa len flags) → ∀ e,
    (u.session.step (.space p)).1 = .error e → u.Untouched (u.next (.space p))
  unmap : ∀ va, u.Untouched (u.next (.space (.unmap va))) ↔ ¬u.Mapped root va
  release : ∀ va, u.Absent root va → u.Untouched (u.next (.space (.releaseLarge va)))
  find : ∀ va w, w = none ∨ u.Absent root va → u.Untouched (u.next (.space (.locate va false w)))

variable {u v : Holding} {root : Frame} {va : VirtualAddress} {Lacks : Prop}
  {x a : Except StepError Answer} {Done : Answer → Prop} {s : Scope} {t t' : Tables} {es : List Event}

namespace Ends

theorem of_blocked (hb : u.Blocked root va) (hm : ¬Lacks) (hx : x ≠ .error (.map (.notMappable va)))
    (ha : a = .error (.map (.notMappable va))) : u.Ends root va Lacks x Done a := by
  subst ha
  exact ⟨by simp [hb], by simp [hm, hx.symm], by simp [hb]⟩

theorem of_missing (hm : Lacks) (hb : ¬u.Blocked root va) (hx : x ≠ .error (.map (.notMappable va)))
    (hd : ∀ r, Done r → x ≠ .ok r) (ha : a = x) : u.Ends root va Lacks x Done a := by
  subst ha
  refine ⟨by simp [hb, hx], by simp [hm], ?_⟩
  constructor
  · rintro ⟨r, hr, hdone⟩
    exact absurd hr (hd r hdone)
  · rintro ⟨-, hn⟩
    exact absurd hm hn

theorem of_done (hb : ¬u.Blocked root va) (hm : ¬Lacks) (hd : ∀ r, Done r → x ≠ .ok r) {r : Answer}
    (ha : a = .ok r) (hr : Done r) : u.Ends root va Lacks x Done a := by
  subst ha
  exact ⟨by simp [hb], by simp [hm, (hd r hr).symm], by simp [hb, hm, hr]⟩

end Ends

namespace Backed

/-! ## Conditions, in terms of the tables -/

theorem phase (h : Backed .windows u t) (i : SlotIndex) :
    (u.slotWord t.root i).map Phase.ofWord = some (Phase.ofWord (t.slot i).bits) := by
  rw [h.slotWord, Option.map_some]

theorem absent_iff (h : Backed .windows u t) : u.Absent t.root va ↔ (t.slot va.slotIndex).content? = none := by
  rw [Absent, h.phase, Option.some.injEq, Phase.ofWord_eq_absent_iff]

theorem blocked_iff (h : Backed .windows u t) : u.Blocked t.root va ↔
    va.slotIndex = selfMapSlot ∨ ∃ q l, (t.slot va.slotIndex).content? = some (.large q l) := by
  rw [Blocked, h.phase, Option.some.injEq, Phase.ofWord_eq_large_iff]

theorem table_iff (h : Backed .windows u t) {i : SlotIndex} :
    (u.slotWord t.root i).map Phase.ofWord = some .table ↔ (t.table? i).isSome := by
  rw [h.phase, Option.some.injEq, Phase.ofWord_eq_table_iff]
  rfl

theorem exhausted_iff (h : Backed .windows u t) : u.Exhausted t.root va ↔
    (t.slot va.slotIndex).content? = none ∧ t.pool.takeLowest? = none := by
  rw [Exhausted, h.absent_iff, h.mirrors.pool, FramePool.takeLowest?_eq_none_iff h.sound.pool]

theorem not_blocked_of_absent (h : Backed .windows u t) (ha : u.Absent t.root va) : ¬u.Blocked t.root va := by
  have hc := h.absent_iff.1 ha
  rw [h.blocked_iff]
  rintro (hs | ⟨q, l, hl⟩)
  · exact ((h.sound.shape _).of_content?_eq_none hc).2.1 hs
  · rw [hc] at hl; cases hl

theorem not_blocked_of_table (h : Backed .windows u t) {f : Frame} (hs : va.slotIndex ≠ selfMapSlot)
    (hf : t.table? va.slotIndex = some f) : ¬u.Blocked t.root va := by
  obtain ⟨l, hc⟩ := Tables.table?_eq_some_iff.1 hf
  rw [h.blocked_iff]
  rintro (hself | ⟨q, l', hl⟩)
  · exact hs hself
  · rw [hc] at hl; cases hl

theorem not_absent_of_table (h : Backed .windows u t) {f : Frame} (hf : t.table? va.slotIndex = some f) :
    ¬u.Absent t.root va := by
  obtain ⟨l, hc⟩ := Tables.table?_eq_some_iff.1 hf
  rw [h.absent_iff, hc]
  simp

theorem mapped_iff (h : Backed .windows u t) : u.Mapped t.root va ↔ t.Maps va := by
  unfold Mapped Tables.Maps
  rw [h.mirrors.ram]
  simp only [Tables.links_iff h.sound]
  refine and_congr_right fun _ => ?_
  constructor
  · rintro ⟨f, w, hf, hw, hp⟩
    rw [Tables.Sound.word?_entry (h.sound.holds_table hf)] at hw
    cases hw
    exact ⟨f, hf, (EntryBits.present_iff _).2 hp⟩
  · rintro ⟨f, hf, hp⟩
    exact ⟨f, _, hf, Tables.Sound.word?_entry (h.sound.holds_table hf) _, (EntryBits.present_iff _).1 hp⟩

/-! ## Exact -/

theorem ends_refused (h : Backed .windows u t) (hb : u.Blocked t.root va) (hm : Lacks → u.Absent t.root va)
    (hx : x ≠ .error (.map (.notMappable va))) (ha : a = .error (.map (.notMappable va))) :
    u.Ends t.root va Lacks x Done a :=
  .of_blocked hb (fun hmissing => h.not_blocked_of_absent (hm hmissing) hb) hx ha

/-- How a lookup that makes tables ends is how the address stands. -/
theorem ends_create (h : Backed .windows u t) {r : Except MapRefusal (Option EntryPlace)}
    (hl : t.Located va true r t') (he : ∀ e, r = .error e → a = .error (.map e))
    (ho : ∀ p, r = .ok (some p) → ∃ x, a = .ok x ∧ Done x) :
    u.Ends t.root va (u.Exhausted t.root va) (.error (.map .noFrame)) Done a := by
  cases hl with
  | window hs => exact h.ends_refused (h.blocked_iff.2 (Or.inl hs)) And.left (by simp) (he _ rfl)
  | large hs hc => exact h.ends_refused (h.blocked_iff.2 (Or.inr ⟨_, _, hc⟩)) And.left (by simp) (he _ rfl)
  | table hs hf =>
    obtain ⟨x, hx, hdone⟩ := ho _ rfl
    exact .of_done (h.not_blocked_of_table hs hf) (fun hx => h.not_absent_of_table hf hx.1) (by simp) hx hdone
  | noFrame hc ht =>
    have hx := h.exhausted_iff.2 ⟨hc, ht⟩
    exact .of_missing hx (h.not_blocked_of_absent hx.1) (by simp) (by simp) (he _ rfl)
  | created hs hc ht =>
    obtain ⟨x, hx, hdone⟩ := ho _ rfl
    refine .of_done (h.not_blocked_of_absent (h.absent_iff.2 hc)) ?_ (by simp) hx hdone
    rw [h.exhausted_iff, ht]
    simp

/-- So is that of a lookup that makes none. -/
theorem ends_find (h : Backed .windows u t) {r : Except MapRefusal (Option EntryPlace)}
    (hl : t.Located va false r t') (he : ∀ e, r = .error e → a = .error (.map e))
    (hn : r = .ok none → a = .ok .nothing) (ho : ∀ p, r = .ok (some p) → ∃ e, a = .ok (.entry e)) :
    u.Ends t.root va (u.Absent t.root va) (.ok .nothing) (∃ e, · = .entry e) a := by
  cases hl with
  | window hs => exact h.ends_refused (h.blocked_iff.2 (Or.inl hs)) id (by simp) (he _ rfl)
  | large hs hc => exact h.ends_refused (h.blocked_iff.2 (Or.inr ⟨_, _, hc⟩)) id (by simp) (he _ rfl)
  | table hs hf =>
    obtain ⟨e, hx⟩ := ho _ rfl
    exact .of_done (h.not_blocked_of_table hs hf) (h.not_absent_of_table hf) (by simp) hx ⟨e, rfl⟩
  | absent hc =>
    have hx := h.absent_iff.2 hc
    exact .of_missing hx (h.not_blocked_of_absent hx) (by simp) (by simp) (hn rfl)

theorem exact (h : Backed .windows u t) : u.Exact t.root := by
  have hanswer (p : SpaceStep) : (u.session.step (.space p)).1 = (t.step p).1 :=
    (h.step_space (Or.inr rfl)).1
  refine ⟨?_, ?_, ?_, ?_, ?_⟩
  · intro va pa flags
    rw [hanswer]
    refine h.ends_create (Tables.located t va true) ?_ ?_
    · intro e he
      rw [Tables.step_map_of_error he]
    · intro p hp
      exact ⟨_, Tables.step_map_of_some hp pa flags, rfl⟩
  · intro va w
    rw [hanswer]
    refine h.ends_create (Tables.located t va true) ?_ ?_
    · intro e he
      rw [Tables.step_locate_of_error he]
    · intro p hp
      rw [Tables.step_locate_of_some hp]
      exact ⟨_, rfl, _, rfl⟩
  · intro va m hm
    obtain ⟨m', hm', -⟩ := (Performs.locate (s := .windows) h.sound va true).computes _ h.mirrors
    rw [hm] at hm'
    exact (Tables.located t va true).ne_none (EStateM.Result.ok.inj hm').1.symm
  · intro va w
    rw [hanswer]
    refine h.ends_find (Tables.located t va false) ?_ ?_ ?_
    · intro e he
      rw [Tables.step_locate_of_error he]
    · intro hn
      rw [Tables.step_locate_of_none hn]
    · intro p hp
      rw [Tables.step_locate_of_some hp]
      exact ⟨_, rfl⟩
  · intro va
    simp only [hanswer, ne_eq, h.table_iff, Tables.step, Tables.releaseLarge, Tables.table?, DirEntry.table?]
    by_cases hs : va.slotIndex = selfMapSlot
    · simp [hs, Space.done]
    · rcases (t.slot va.slotIndex).content? with _ | (_ | _) <;> simp [hs, Space.done]

/-! ## Atomic -/

theorem untouched (h : Backed s u t) (h' : Backed s v t) : u.Untouched v where
  ram := h'.mirrors.ram.trans h.mirrors.ram.symm
  pool := h'.mirrors.pool.trans h.mirrors.pool.symm
  cr3 := h'.mirrors.root.trans h.mirrors.root.symm
  current := h'.space.trans h.space.symm
  calls := h'.mirrors.calls.trans h.mirrors.calls.symm
  taken := h'.mirrors.taken.trans h.mirrors.taken.symm
  returned := h'.mirrors.returned.trans h.mirrors.returned.symm

theorem atomic (h : Backed .windows u t) : u.Atomic t.root := by
  have hsame {p : SpaceStep} (hp : (t.step p).2 = t) : u.Untouched (u.next (.space p)) := by
    have h' := (h.step_space (p := p) (Or.inr rfl)).2.2
    rw [hp] at h'
    exact h.untouched h'
  refine ⟨?_, ?_, ?_, ?_⟩
  · intro p hp e he
    rw [(h.step_space (Or.inr rfl)).1] at he
    exact hsame (Tables.step_of_error hp he)
  · intro va
    rw [h.mapped_iff]
    constructor
    · intro hu hmaps
      have h' := (h.step_space (p := .unmap va) (Or.inr rfl)).2.2
      have hcalls : (t.unmap va).calls = t.calls := by
        rw [← h.mirrors.calls]
        exact h'.mirrors.calls.symm.trans hu.calls
      rw [Tables.calls_unmap_of_maps hmaps] at hcalls
      simpa using congrArg Array.size hcalls
    · intro hn
      exact hsame (Tables.unmap_of_not_maps hn)
  · intro va ha
    exact hsame (Tables.releaseLarge_of_absent (h.absent_iff.1 ha))
  · intro va w hw
    apply hsame
    have hsame := Tables.locate_false t va
    rcases hr : (t.locate va false).1 with e | (_ | p)
    · rw [Tables.step_locate_of_error hr, hsame]
    · rw [Tables.step_locate_of_none hr, hsame]
    · rw [Tables.step_locate_of_some hr, hsame]
      rcases hw with rfl | ha
      · rfl
      · have hnothing := (h.exact.find va w).missing.2 ha
        rw [(h.step_space (Or.inr rfl)).1, Tables.step_locate_of_some hr] at hnothing
        cases hnothing

end Backed

/-! ## Runs -/

/-- At every moment after boot, steps are refused for the reasons given, and a refusal leaves no trace. -/
theorem refusals_run (hb : u.Booted) (hf : u.HarmlessRun es) :
    ∃ root, u.session.space = some ⟨some ⟨root⟩⟩ ∧ (u.run es).Exact root ∧ (u.run es).Atomic root := by
  obtain ⟨m, root, table, pool, -, -, -, h⟩ := hb.backed .windows
  obtain ⟨t, hadv, h'⟩ := h.advance hf fun _ _ => Or.inr rfl
  have hroot : t.root = root := hadv.root
  exact ⟨root, h.space, hroot ▸ h'.exact, hroot ▸ h'.atomic⟩

theorem refusals_run_small : ∃ root, smallBooted.session.space = some ⟨some ⟨root⟩⟩ ∧
    (smallBooted.run [.space (.releaseLarge ⟨0x400000⟩), .pool .take, .cache ⟨0x3000⟩,
      .space (.map ⟨0x400000⟩ ⟨0x5000⟩ ⟨3⟩)]).Exact root ∧
    (smallBooted.run [.space (.releaseLarge ⟨0x400000⟩), .pool .take, .cache ⟨0x3000⟩,
      .space (.map ⟨0x400000⟩ ⟨0x5000⟩ ⟨3⟩)]).Atomic root :=
  refusals_run booted_small ⟨trivial, trivial, trivial, trivial, trivial⟩

end Holding

end Paging
