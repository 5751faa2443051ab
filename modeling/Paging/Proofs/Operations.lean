import Paging.Proofs.Coherence
import Paging.Proofs.Mirror

/-!
# The operations do what their direct forms say

`Performs` is the relation between an operation, which reaches the tables through windows and cached
translations, and its form on the tables alone. On every machine that mirrors sound tables and has
cached only what they vouch for, the operation ends without a fault and with the same value, and the
machine then mirrors the new tables, which are sound again, and has cached only what these vouch for.
Machines that agree on the frames of the tables stay so: nothing else is read, and a new table is
written before it is.

A lookup that writes through the entry it found drops nothing, so that it is followed for the windows
alone; all other steps are followed for every address.
-/

namespace Paging

/-- What is known of a machine with the tables `t`. -/
def Tables.knowledge (t : Tables) (s : Scope) : Knowledge := ⟨t, t.translations s, t.owned⟩

structure Performs {α : Type} (s : Scope) (x : MachineM α) (t : Tables) (r : α × Tables) : Prop where
  sound : r.2.Sound
  grows : t.Grows r.2
  computes : Computes x (t.knowledge s) r.1 (r.2.knowledge s)

namespace Performs

variable {α β : Type} {s : Scope} {t t' : Tables} {va : VirtualAddress} {i : SlotIndex} {f : Frame}

/-! ## Putting actions together -/

/-- An action that leaves the tables and what may be cached alone. -/
theorem of_computes (h : t.Sound) {x : MachineM α} {a : α}
    (hx : ∀ A, Computes x ⟨t, A, t.owned⟩ a ⟨t, A, t.owned⟩) : Performs s x t (a, t) :=
  ⟨h, .refl t, hx _⟩

theorem pure (h : t.Sound) (a : α) : Performs s (pure a) t (a, t) := of_computes h fun _ => .pure a

theorem of_eq (h : t.Sound) {x : MachineM α} {a : α} (hx : x = Pure.pure a) : Performs s x t (a, t) :=
  of_computes h fun _ => .of_eq hx

theorem emit (h : t.Sound) (e : LogEvent) : Performs s (emit e) t ((), t) := of_computes h fun _ => .emit e

theorem bind {x : MachineM α} {g : α → MachineM β} {a : α} {r : β × Tables}
    (hx : Performs s x t (a, t')) (hg : Performs s (g a) t' r) : Performs s (x >>= g) t r :=
  ⟨hg.sound, hx.grows.trans hg.grows, hx.computes.bind hg.computes⟩

/-! ## Reading -/

theorem window (h : t.Sound) (hf : t.table? i = some f) :
    Performs s (Machine.window (tableView i)) t (f, t) := by
  have hsmall (g : Frame) (hg : (t.translations s).small ((tableView i).page .small) g) : g = f :=
    Tables.eq_of_translations_window h hf hg
  have hx := Computes.window h hf h.root_mem_owned hsmall fun q => Tables.not_translations_large h
  have hmem : (t.translations s).small ((tableView i).page .small) f := by
    intro _
    exact Or.inl (Tables.gives_window h hf)
  rw [Translations.add_of_mem hmem] at hx
  exact ⟨h, .refl t, hx⟩

theorem directory (h : t.Sound) : Performs s Machine.directory t (t.root, t) := by
  rw [Machine.directory, ← tableView_selfMapSlot]
  exact window h h.table?_selfMap

theorem table (h : t.Sound) (hs : i ≠ selfMapSlot) (hf : t.table? i = some f) :
    Performs s (Machine.table i) t (f, t) := by
  rw [Machine.table_eq hs]
  exact window h hf

theorem readSlot (h : t.Sound) (i : SlotIndex) : Performs s (Space.readSlot t.root i) t (t.slot i, t) :=
  of_computes h fun _ => (Computes.readWord h.root_mem_owned (h.word?_slot i)).bind (.pure _)

theorem read (h : t.Sound) {p : EntryPlace} (hp : t.table? i = some p.table) :
    Performs s p.read t (t.entry p.table p.index, t) :=
  have hword := Tables.Sound.word?_entry (h.holds_table hp) p.index
  of_computes h fun _ => (Computes.readWord (Tables.mem_owned hp) hword).bind (.pure _)

/-! ## Lookup -/

theorem createTable (h : t.Sound) (hs : i ≠ selfMapSlot) (hc : (t.slot i).content? = none) {pool : FramePool}
    (ht : t.pool.takeLowest? = some (f, pool)) :
    Performs s (Space.createTable t.root i) t (.ok (), t.link i f pool) := by
  have hset := Tables.sound_setSlot_took h hs hc ht
  have hf := Tables.table?_setSlot_took_self (i := i) h ht
  let A := (t.translations s).drop ((tableView i).page .small)
  -- the window was dropped, so whatever the processor remembered of it is gone before it is used
  let linked := ((t.took pool).setSlot i (.link .userRw f)).call (.invalidate ((tableView i).page .small))
  have hwindow : Computes (Machine.table i) ⟨linked, A, t.owned⟩ f
      ⟨linked, A.add ((tableView i).page .small) f, t.owned⟩ := by
    rw [Machine.table_eq hs]
    apply Computes.window (hset.call _) hf h.root_mem_owned
    · rintro g ⟨hne, -⟩
      exact absurd rfl hne
    · rintro q ⟨-, hq⟩
      exact Tables.not_translations_large h hq
  refine ⟨Tables.link_sound h hs hc ht, Tables.link_grows h hs hc ht, ?_⟩
  refine Computes.weaken ?_ (Tables.translations_link h hs hc ht) (Tables.owned_link_subset h hs hc ht)
  refine (Computes.takeFrame_some ht).bind ?_
  refine (Computes.of_eq (Machine.fitted_link .userRw f)).bind ?_
  refine (Computes.writeWord (h.took ht).holds_root i _).bind ?_
  refine (Computes.of_eq (Machine.viewOf_eq i)).bind ?_
  refine (Computes.invalidate _).bind ?_
  refine hwindow.bind ?_
  refine (Computes.writeFrame ((hset.call _).holds_table hf) _).bind ?_
  exact (Computes.emit _).bind (.pure _)

theorem ensureTable (h : t.Sound) (hs : va.slotIndex ≠ selfMapSlot) (create : Bool) :
    Performs s (Space.ensureTable va va.slotIndex create) t
      ((t.ensureTable va create).1.map Option.isSome, (t.ensureTable va create).2) := by
  unfold Space.ensureTable Tables.ensureTable
  refine (directory h).bind ((readSlot h _).bind ?_)
  cases hc : (t.slot va.slotIndex).content? with
  | some c =>
    cases c with
    | table f l => exact pure h _
    | large q l => exact (emit h _).bind (pure h _)
  | none =>
    cases create with
    | false => exact pure h _
    | true =>
      cases ht : t.pool.takeLowest? with
      | none =>
        have hcreate : Performs s (Space.createTable t.root va.slotIndex) t (.error .noFrame, t) :=
          of_computes h fun _ => (Computes.takeFrame_none ht).bind ((Computes.emit _).bind (.pure _))
        exact hcreate.bind (pure h _)
      | some fp =>
        have hcreate := createTable (s := s) h hs hc ht
        exact hcreate.bind (pure hcreate.sound _)

theorem locate (h : t.Sound) (va : VirtualAddress) (create : Bool) :
    Performs s (Space.locate va create) t (t.locate va create) := by
  have hl := Tables.located t va create
  unfold Space.locate
  refine (of_eq h (Machine.slotOf_eq va)).bind ((of_eq h (Machine.entryOf_eq va)).bind ?_)
  by_cases hs : va.slotIndex = selfMapSlot
  · rw [if_pos hs, Tables.locate, if_pos hs]
    exact (emit h _).bind (pure h _)
  · rw [if_neg hs]
    unfold Tables.locate at hl ⊢
    rw [if_neg hs] at hl ⊢
    have hx := ensureTable (s := s) h hs create
    generalize t.ensureTable va create = r at hl hx ⊢
    obtain ⟨r, t'⟩ := r
    refine hx.bind ?_
    rcases r with e | (_ | f)
    · exact pure hx.sound _
    · exact pure hx.sound _
    · obtain ⟨-, hf, -⟩ := hl.place h
      exact (table hx.sound hs hf).bind (pure hx.sound _)

/-! ## Changes -/

theorem write {A : Translations} {F : Set Frame} {p : EntryPlace} (hp : t.ram.Holds p.table)
    (e : EntryBits) : Computes (p.write e) ⟨t, A, F⟩ () ⟨t.setEntry p.table p.index e, A, F⟩ :=
  .writeWord hp _ _

/-- Writing an entry and dropping its page, whatever is logged in between. -/
theorem put (h : t.Sound) (hs : va.slotIndex ≠ selfMapSlot) {p : EntryPlace}
    (hf : t.table? va.slotIndex = some p.table) (hk : p.index = va.entryIndex) (e : EntryBits)
    (ev : LogEvent) (a : α) :
    Performs s (do p.write e; Paging.emit ev; Machine.invalidate (va.page .small); return a) t
      (a, t.put va p e) := by
  have hgrows : t.Grows (t.put va p e) := (Tables.setEntry_grows h hs hf _ e).trans (Tables.call_grows _ _)
  refine ⟨(h.setEntry hf hs _ e).call _, hgrows, ?_⟩
  have hle : (t.translations s).drop (va.page .small) ≤ (t.put va p e).translations s := by
    rw [Tables.put, hk]
    exact Tables.translations_setEntry h hs hf e
  refine Computes.weaken ?_ hle (Tables.owned_setEntry h hs hf _ e).subset
  refine (write (h.holds_table hf) e).bind ?_
  exact (Computes.emit _).bind ((Computes.invalidate _).bind (.pure _))

theorem map (h : t.Sound) (va : VirtualAddress) (pa : PhysicalAddress) (flags : EntryBits) :
    Performs s (Space.map va pa flags) t (t.map va pa flags) := by
  have hl := Tables.located t va true
  have hx := locate (s := s) h va true
  unfold Space.map Tables.map
  generalize t.locate va true = r at hl hx ⊢
  obtain ⟨r, t'⟩ := r
  refine hx.bind ?_
  match r with
  | .error e => exact pure hx.sound _
  | .ok none => exact pure hx.sound _
  | .ok (some p) =>
    obtain ⟨hs, hf, hk⟩ := hl.place h
    refine (of_eq hx.sound (Machine.fitted_leaf (pa.page .small) flags)).bind ?_
    exact put hx.sound hs hf hk _ _ _

theorem unmap (h : t.Sound) (va : VirtualAddress) : Performs s (Space.unmap va) t ((), t.unmap va) := by
  have hl := Tables.located t va false
  have hx := locate (s := s) h va false
  unfold Space.unmap Tables.unmap
  generalize t.locate va false = r at hl hx ⊢
  obtain ⟨r, t'⟩ := r
  refine hx.bind ?_
  match r with
  | .error e => exact emit hx.sound _
  | .ok none => exact pure hx.sound _
  | .ok (some p) =>
    obtain ⟨hs, hf, hk⟩ := hl.place h
    refine (read hx.sound hf).bind ?_
    simp only
    split
    · exact put hx.sound hs hf hk _ _ ()
    · exact pure hx.sound _

theorem releaseLarge (h : t.Sound) (va : VirtualAddress) :
    Performs s (Space.releaseLarge va) t (t.releaseLarge va) := by
  unfold Space.releaseLarge Tables.releaseLarge
  refine (of_eq h (Machine.slotOf_eq va)).bind ?_
  by_cases hs : va.slotIndex = selfMapSlot
  · rw [if_pos hs]
    simp only [hs, if_true]
    exact (emit h _).bind (pure h _)
  · rw [if_neg hs]
    simp only [hs, if_false]
    refine (directory h).bind ((readSlot h _).bind ?_)
    cases hc : (t.slot va.slotIndex).content? with
    | none => exact pure h _
    | some c =>
      cases c with
      | table f l => exact (emit h _).bind (pure h _)
      | large q l =>
        have h' := Tables.release_sound h hc
        refine ⟨h'.call _, (Tables.release_grows h hc).trans (Tables.call_grows _ _), ?_⟩
        refine Computes.weaken ?_ (Tables.translations_release h hc) (Tables.owned_release h hc).subset
        refine (Computes.writeWord h.holds_root _ _).bind ?_
        exact (Computes.emit _).bind ((Computes.invalidate _).bind (.pure _))

theorem mapPages (va : VirtualAddress) (first : Page .virtual .small) (frame : Frame) (flags : EntryBits)
    (n : Nat) : ∀ {i : Nat} {t : Tables}, i + n ≤ PageSize.small.pageCount + 1 → t.Sound →
      Performs s (Space.mapPages va first frame flags i n) t (t.mapPages va first frame flags i n) := by
  induction n with
  | zero => intro i t _ h; exact pure h _
  | succ n ih =>
    intro i t hn h
    unfold Space.mapPages Tables.mapPages
    refine (of_eq h (Machine.pageAfter_eq first (n := i) (by omega))).bind ?_
    refine (of_eq h (Machine.pageAfter_eq frame (n := i) (by omega))).bind ?_
    cases first.advance? i with
    | none => exact pure h _
    | some p =>
      cases frame.advance? i with
      | none => exact pure h _
      | some f =>
        have hx := map (s := s) h p.base f.base flags
        simp only
        generalize t.map p.base f.base flags = r at hx ⊢
        obtain ⟨r, t'⟩ := r
        refine hx.bind ?_
        match r with
        | .ok () => exact ih (by omega) hx.sound
        | .error e => exact pure hx.sound _

theorem unmapPages (first : Page .virtual .small) (n : Nat) :
    ∀ {i : Nat} {t : Tables}, i + n ≤ PageSize.small.pageCount + 1 → t.Sound →
      Performs s (Space.unmapPages first i n) t ((), t.unmapPages first i n) := by
  induction n with
  | zero => intro i t _ h; exact pure h _
  | succ n ih =>
    intro i t hn h
    unfold Space.unmapPages Tables.unmapPages
    refine (of_eq h (Machine.pageAfter_eq first (n := i) (by omega))).bind ?_
    cases first.advance? i with
    | none => exact pure h _
    | some p =>
      have hx := unmap (s := s) h p.base
      exact hx.bind (ih (by omega) hx.sound)

/-! ## Questions -/

theorem slot (h : t.Sound) (i : SlotIndex) : Performs s (Space.slot i) t (t.slot i, t) :=
  (directory h).bind (readSlot h i)

theorem translate (h : t.Sound) (va : VirtualAddress) :
    Performs s (Space.translate va) t (t.translate va, t) := by
  unfold Space.translate Tables.translate
  refine (of_eq h (Machine.slotOf_eq va)).bind ((of_eq h (Machine.entryOf_eq va)).bind ?_)
  refine (slot h _).bind ?_
  cases hc : (t.slot va.slotIndex).content? with
  | none => exact pure h _
  | some c =>
    cases c with
    | large q l => exact pure h _
    | table f l =>
      have hf := Tables.table?_eq_some_iff.2 ⟨l, hc⟩
      refine (of_eq h (Machine.viewOf_eq _)).bind ?_
      refine (window h hf).bind (Performs.bind (of_computes h fun _ =>
        .readWord (Tables.mem_owned hf) (Tables.Sound.word?_entry (h.holds_table hf) va.entryIndex)) ?_)
      simp only
      cases (t.entry f va.entryIndex).mapping? with
      | none => exact pure h _
      | some m => exact pure h _

theorem regionOf (h : t.Sound) (va : VirtualAddress) :
    Performs s (Space.regionOf va) t (t.regionOf va, t) :=
  (of_eq h (Machine.slotOf_eq va)).bind ((slot h _).bind (pure h _))

theorem slotContent (h : t.Sound) (i : SlotIndex) :
    Performs s (Space.slotContent i) t ((t.slot i).content?, t) :=
  (slot h _).bind (pure h _)

theorem entriesOf (h : t.Sound) (i : SlotIndex) :
    Performs s (Space.entriesOf i) t (t.entriesOf i, t) := by
  unfold Space.entriesOf Tables.entriesOf
  by_cases hs : i = selfMapSlot
  · rw [if_pos hs, if_pos hs]; exact pure h _
  · rw [if_neg hs, if_neg hs]
    refine (slotContent h i).bind ?_
    cases hc : (t.slot i).content? with
    | none => exact pure h _
    | some c =>
      cases c with
      | large q l => exact pure h _
      | table f l =>
        have hf := Tables.table?_eq_some_iff.2 ⟨l, hc⟩
        obtain ⟨ws, hws⟩ := Option.isSome_iff_exists.1 (Ram.frame?_isSome_iff.2 (h.holds_table hf))
        have hentry (k : EntryIndex) : t.entry f k = ⟨ws[k]⟩ := by
          simp only [Tables.entry, Ram.word?, hws, Option.map_some, Option.getD_some]
        have hread : Performs s (Machine.readFrame f) t (ws, t) :=
          of_computes h fun _ => .readFrame (Tables.mem_owned hf) hws
        refine (table h hs hf).bind (hread.bind ?_)
        simp only [Tables.mappings, hentry]
        exact pure h _

/-- Questions asked one after the other. -/
theorem mapM (h : t.Sound) {x : α → MachineM β} {y : α → β} (hx : ∀ a, Performs s (x a) t (y a, t))
    (as : List α) : Performs s (as.mapM x) t (as.map y, t) := by
  induction as with
  | nil => exact pure h _
  | cons a as ih =>
    rw [List.mapM_cons, List.map_cons]
    exact (hx a).bind (ih.bind (pure h _))

theorem layout (h : t.Sound) : Performs s Space.layout t (t.layout, t) := by
  have hx (i : SlotIndex) : Performs s (do return (i, ← Space.regionOf (SlotIndex.base i))) t
      ((i, t.regionOf (SlotIndex.base i)), t) := (regionOf h _).bind (pure h _)
  unfold Space.layout Tables.layout
  generalize List.finRange 1024 = is
  exact (mapM h hx is).bind (pure h _)

/-! ## Steps -/

/-- Storing any word in an entry, without dropping what is cached for its page. -/
theorem writeEntry (h : t.Sound) (hs : i ≠ selfMapSlot) {p : EntryPlace} (hf : t.table? i = some p.table)
    (e : EntryBits) : Performs .windows (p.write e) t ((), t.setEntry p.table p.index e) where
  sound := h.setEntry hf hs p.index e
  grows := Tables.setEntry_grows h hs hf _ e
  computes := (write (h.holds_table hf) e).weaken (Tables.translations_setEntry_windows h hs hf _ e)
    (Tables.owned_setEntry h hs hf _ e).subset

theorem useEntry (h : t.Sound) (hs : i ≠ selfMapSlot) {p : EntryPlace} (hf : t.table? i = some p.table)
    (w : Option EntryWrite) (hw : w = none ∨ s = .windows) :
    Performs s (Space.useEntry p w) t (t.useEntry p w) := by
  have hwrite (e : EntryBits) (hsc : s = .windows) : Performs s (do p.write e; p.read) t
      (e, t.setEntry p.table p.index e) := by
    subst hsc
    have hf' : (t.setEntry p.table p.index e).table? i = some p.table := by
      rw [Tables.table?_setEntry h hs hf]; exact hf
    have hread := read (s := .windows) (h.setEntry hf hs p.index e) hf'
    rw [Tables.entry_setEntry (h.holds_table hf), if_pos ⟨rfl, rfl⟩] at hread
    exact (writeEntry h hs hf e).bind hread
  match w with
  | none => exact read h hf
  | some .clear => exact hwrite .absent (hw.resolve_left (by simp))
  | some (.leaf pa flags) =>
    exact (of_eq h (Machine.fitted_leaf (pa.page .small) flags)).bind (hwrite _ (hw.resolve_left (by simp)))

end Performs

/-- The step does not write through an entry that it found. -/
def SpaceStep.DropsWhatItWrites : SpaceStep → Prop
  | .locate _ _ write => write = none
  | _ => True

/-- The index of the step, if it has one, is in range. -/
def SpaceStep.InRange : SpaceStep → Prop
  | .slotContent n | .entriesOf n => n < 1024
  | _ => True

/-- What is cached for the addresses of `s` is followed by the step. -/
def Scope.Follows (s : Scope) (p : SpaceStep) : Prop := p.DropsWhatItWrites ∨ s = .windows

theorem Performs.step {s : Scope} {t : Tables} (h : t.Sound) {p : SpaceStep} (hr : p.InRange)
    (hf : s.Follows p) : Performs s (Space.step p) t (t.step p) := by
  cases p with
  | map va pa flags => exact (map h va pa flags).bind (pure (map (s := s) h va pa flags).sound _)
  | mapSpan va pa len flags =>
    have hn : 0 + Space.pagesInSpan va len ≤ _ := (Nat.zero_add _).trans_le (Space.pagesInSpan_le va len)
    have hx := mapPages (s := s) va (va.page .small) (pa.page .small) flags _ hn h
    exact ((of_eq h (Space.countPages_eq va len)).bind hx).bind (pure hx.sound _)
  | unmap va => exact (unmap h va).bind (pure (unmap (s := s) h va).sound _)
  | unmapSpan va len =>
    have hn : 0 + Space.pagesInSpan va len ≤ _ := (Nat.zero_add _).trans_le (Space.pagesInSpan_le va len)
    have hx := unmapPages (s := s) (va.page .small) _ hn h
    exact ((of_eq h (Space.countPages_eq va len)).bind hx).bind (pure hx.sound _)
  | releaseLarge va =>
    exact (releaseLarge h va).bind (pure (releaseLarge (s := s) h va).sound _)
  | locate va create w =>
    have hl := Tables.located t va create
    have hx := locate (s := s) h va create
    unfold Space.step Tables.step
    simp only
    generalize t.locate va create = r at hl hx ⊢
    obtain ⟨r, t'⟩ := r
    refine hx.bind ?_
    match r with
    | .error e => exact pure hx.sound _
    | .ok none => exact pure hx.sound _
    | .ok (some p) =>
      obtain ⟨hs, hp, -⟩ := hl.place h
      have hu := useEntry hx.sound hs hp w hf
      exact hu.bind (pure hu.sound _)
  | translate va => exact (translate h va).bind (pure h _)
  | regionOf va => exact (regionOf h va).bind (pure h _)
  | slotContent n =>
    unfold Space.step Tables.step
    simp only [checkIndex_of_lt hr]
    exact (of_eq h (Machine.index_of_lt hr)).bind ((slotContent h _).bind (pure h _))
  | entriesOf n =>
    unfold Space.step Tables.step
    simp only [checkIndex_of_lt hr]
    exact (of_eq h (Machine.index_of_lt hr)).bind ((entriesOf h _).bind (pure h _))
  | layout => exact (layout h).bind (pure h _)

/-- The only fault is an index out of range. -/
theorem Tables.step_ne_fault {p : SpaceStep} (hr : p.InRange) (t : Tables) (e : Fault) :
    (t.step p).1 ≠ .error (.fault e) := by
  have hdone (r : Except MapRefusal Unit) : Space.done r ≠ .error (.fault e) := by
    cases r <;> simp [Space.done]
  cases p with
  | map | mapSpan | releaseLarge => exact hdone _
  | locate va create w =>
    simp only [Tables.step]
    generalize t.locate va create = r
    obtain ⟨r, t'⟩ := r
    rcases r with e | (_ | p) <;> simp
  | slotContent n =>
    simp only [Tables.step, checkIndex, dif_pos (show n < 1024 from hr)]
    simp
  | entriesOf n =>
    simp only [Tables.step, checkIndex, dif_pos (show n < 1024 from hr)]
    simp
  | unmap | unmapSpan | translate | regionOf | layout => simp [Tables.step]

/-- A step whose index is out of range is a fault that changes nothing. -/
theorem Space.step_of_not_inRange {p : SpaceStep} (hr : ¬p.InRange) (m : Machine) (t : Tables) :
    Space.step p m = .error .indexOutOfRange m ∧ t.step p = (.error (.fault .indexOutOfRange), t) := by
  cases p with
  | slotContent n =>
    have hi : checkIndex n = .error .indexOutOfRange := dif_neg hr
    simp only [Space.step, Tables.step, Machine.index, hi]
    exact ⟨rfl, trivial⟩
  | entriesOf n =>
    have hi : checkIndex n = .error .indexOutOfRange := dif_neg hr
    simp only [Space.step, Tables.step, Machine.index, hi]
    exact ⟨rfl, trivial⟩
  | map | mapSpan | unmap | unmapSpan | releaseLarge | locate | translate | regionOf | layout =>
    exact absurd trivial hr

end Paging
