import Paging.Proofs.Invalidation
import Paging.Proofs.Ownership
import Paging.Proofs.Refinement

/-!
# Changes of different pages commute

A `PageEdit` maps or unmaps one page. Two edits of different pages may be made in either order: each has
the same answer, the same pages are invalidated, and the two machines that result are `Alike`
(`commutes_run`). They are not equal: if both edits make a table, then the first of them gets the lower
frame, which shows in the window. Two free frames are needed, since the last one would also go to the
first.

With the tables forgotten, an edit changes one area, and such changes commute area by area
(`AddressSpace.edit_comm`). Of the pool only the number of frames matters that were taken: it always hands
out the lowest, so that equally many frames are the same frames (`FramePool.TakesLowest.unique`).
-/

namespace Paging

/-- A change of the page of `va`. -/
inductive PageEdit where
  | map (va : VirtualAddress) (pa : PhysicalAddress) (flags : EntryBits)
  | unmap (va : VirtualAddress)

namespace PageEdit

def va : PageEdit → VirtualAddress
  | map va _ _ => va
  | unmap va => va

def step : PageEdit → SpaceStep
  | map va pa flags => .map va pa flags
  | unmap va => .unmap va

/-- What the page is mapped to then. -/
def mapping : PageEdit → Option Mapping
  | map _ pa flags => some (.ofFlags (pa.page .small) flags)
  | unmap _ => none

end PageEdit

namespace Holding

/-- The two look the same below the window, whichever table lies in which of the same frames. -/
structure Alike (u v : Holding) : Prop where
  translate : ∀ va : VirtualAddress, va.val.toNat < 0xFFC00000 →
    v.answer (.space (.translate va)) = u.answer (.space (.translate va))
  region : ∀ va, v.answer (.space (.regionOf va)) = u.answer (.space (.regionOf va))
  owned : v.Owned = u.Owned
  pool : v.session.machine.pool = u.session.machine.pool
  taken : v.session.machine.taken = u.session.machine.taken
  returned : v.session.machine.returned = u.session.machine.returned

/-- The steps `p` and `q` may be made in either order. -/
structure Commutes (u : Holding) (p q : SpaceStep) : Prop where
  first : (u.next (.space q)).answer (.space p) = u.answer (.space p)
  second : (u.next (.space p)).answer (.space q) = u.answer (.space q)
  /-- The same pages are invalidated, each as often. -/
  calls : (u.callsOf p ++ (u.next (.space p)).callsOf q).Perm
    (u.callsOf q ++ (u.next (.space q)).callsOf p)
  alike : ((u.next (.space p)).next (.space q)).Alike ((u.next (.space q)).next (.space p))

end Holding

/-! ## One area -/

namespace Area

def edit (x : Area) (e : PageEdit) : Area :=
  match x, e with
  | .table pages, e => .table (Function.update pages e.va.entryIndex e.mapping)
  | .absent, .map va pa flags =>
    .table (Function.update (fun _ => none) va.entryIndex (PageEdit.map va pa flags).mapping)
  | .absent, .unmap _ => .absent
  | .large, _ => .large
  | .window, _ => .window

/-- What the edit answers, if a frame is free. -/
def answerTo (x : Area) (e : PageEdit) : Except StepError Answer :=
  match x, e with
  | .large, .map va .. | .window, .map va .. => .error (.map (.notMappable va))
  | _, _ => .ok .nothing

/-- The frames that the edit takes for tables. -/
def framesFor (x : Area) (e : PageEdit) : Nat :=
  match x, e with
  | .absent, .map .. => 1
  | _, _ => 0

/-- The pages that the edit invalidates. -/
def drops (x : Area) (e : PageEdit) : List (Page .virtual .small) :=
  match x, e with
  | .table _, .map va .. => [va.page .small]
  | .table pages, .unmap va => if (pages va.entryIndex).isSome then [va.page .small] else []
  | .absent, .map va .. => [(tableView va.slotIndex).page .small, va.page .small]
  | _, _ => []

variable {e e' : PageEdit}

theorem answerTo_edit (x : Area) (e e' : PageEdit) : (x.edit e).answerTo e' = x.answerTo e' := by
  cases x <;> cases e <;> cases e' <;> rfl

/-- Together, two edits take as many frames in either order: the first that needs a table makes it for
both. -/
theorem framesFor_comm (x : Area) (e e' : PageEdit) :
    x.framesFor e + (x.edit e).framesFor e' = x.framesFor e' + (x.edit e').framesFor e := by
  cases x <;> cases e <;> cases e' <;> rfl

theorem framesFor_le (x : Area) (e : PageEdit) : x.framesFor e ≤ 1 := by
  unfold framesFor
  split <;> omega

section Comm

variable (hne : e.va.entryIndex ≠ e'.va.entryIndex)

include hne

theorem edit_comm (x : Area) : (x.edit e).edit e' = (x.edit e').edit e := by
  cases x with
  | window | large => rfl
  | table pages => exact congrArg table (Function.update_comm hne _ _ _)
  | absent =>
    -- a new table has no page, so that removing one from it, or from no table, comes to the same
    have hblank {k l : EntryIndex} (hkl : k ≠ l) (m : Option Mapping) : Function.update
        (Function.update (fun _ => none) k m) l none = Function.update (fun _ => none) k m := by
      rw [Function.update_comm hkl, Function.update_eq_self]
    cases e with
    | map =>
      cases e' with
      | map => exact congrArg table (Function.update_comm hne _ _ _)
      | unmap => exact congrArg table (hblank hne _)
    | unmap =>
      cases e' with
      | map => exact congrArg table (hblank hne.symm _).symm
      | unmap => rfl

/-- In a table, an edit of another page changes nothing for this one. -/
theorem drops_update (pages : EntryIndex → Option Mapping) (m : Option Mapping) :
    (table (Function.update pages e.va.entryIndex m)).drops e' = (table pages).drops e' := by
  have hpage : Function.update pages e.va.entryIndex m e'.va.entryIndex = pages e'.va.entryIndex :=
    Function.update_of_ne hne.symm m pages
  cases e' with
  | map => rfl
  | unmap vb => exact congrArg (fun p : Option Mapping => if p.isSome then [vb.page .small] else []) hpage

theorem drops_comm (hs : e.va.slotIndex = e'.va.slotIndex) (x : Area) :
    (x.drops e ++ (x.edit e).drops e').Perm (x.drops e' ++ (x.edit e').drops e) := by
  cases x with
  | window | large => rfl
  | table pages =>
    simp only [edit, drops_update hne, drops_update hne.symm]
    exact List.perm_append_comm
  | absent =>
    cases e with
    | map va =>
      cases e' with
      | map vb =>
        have hs : va.slotIndex = vb.slotIndex := hs
        show List.Perm [_, _, vb.page .small]
          [(tableView vb.slotIndex).page .small, vb.page .small, va.page .small]
        rw [← hs]
        exact (List.Perm.swap _ _ _).cons _
      | unmap =>
        exact .of_eq (congrArg (_ :: _ :: ·) (drops_update hne (fun _ => none) _))
    | unmap =>
      cases e' with
      | map => exact .of_eq (congrArg (_ :: _ :: ·) (drops_update hne.symm (fun _ => none) _)).symm
      | unmap => rfl

end Comm

end Area

/-! ## The address space -/

namespace AddressSpace

/-- The area that the edit is about. -/
def areaOf (a : AddressSpace) (e : PageEdit) : Area := a.area e.va.slotIndex

/-- The address space after the edit, if a frame is free. -/
def edit (a : AddressSpace) (e : PageEdit) : AddressSpace :=
  { a.setArea e.va.slotIndex ((a.areaOf e).edit e) with free := a.free - (a.areaOf e).framesFor e }

variable {a : AddressSpace} {e e' : PageEdit}

theorem edit_eq_self (hx : (a.areaOf e).edit e = a.areaOf e) (hf : (a.areaOf e).framesFor e = 0) :
    a.edit e = a := by
  refine AddressSpace.ext ?_ ?_
  · show Function.update a.area e.va.slotIndex ((a.areaOf e).edit e) = a.area
    rw [hx, areaOf, Function.update_eq_self]
  · show a.free - (a.areaOf e).framesFor e = a.free
    rw [hf, Nat.sub_zero]

theorem edit_of_table {pages : EntryIndex → Option Mapping} (hx : a.areaOf e = .table pages) :
    a.edit e = a.store e.va pages e.mapping := by
  rw [edit, hx]; rfl

theorem map_eq_edit (hfree : a.free ≠ 0) (va : VirtualAddress) (pa : PhysicalAddress) (flags : EntryBits) :
    (Space.done (a.map va pa flags).1, (a.map va pa flags).2) =
      ((a.areaOf (.map va pa flags)).answerTo (.map va pa flags), a.edit (.map va pa flags)) := by
  have harea : a.area va.slotIndex = a.areaOf (.map va pa flags) := rfl
  unfold map lookup
  rw [harea]
  cases hx : a.areaOf (.map va pa flags) with
  | window | large => rw [edit_eq_self (by rw [hx]; rfl) (by rw [hx]; rfl)]; rfl
  | table pages => rw [edit_of_table hx]; rfl
  | absent =>
    -- the table is made first, and its entry written then
    simp only [hfree, if_true, if_false]
    rw [edit, hx]
    exact Prod.ext rfl (AddressSpace.ext (Function.update_idem _ _ _) rfl)

theorem unmap_eq_edit (a : AddressSpace) (va : VirtualAddress) : a.unmap va = a.edit (.unmap va) := by
  have harea : a.area va.slotIndex = a.areaOf (.unmap va) := rfl
  unfold unmap
  rw [harea]
  cases hx : a.areaOf (.unmap va) with
  | window | large | absent => exact (edit_eq_self (by rw [hx]; rfl) (by rw [hx]; rfl)).symm
  | table pages => exact (edit_of_table hx).symm

/-- A step on one page does as its edit does. -/
theorem step_edit (hfree : a.free ≠ 0) (e : PageEdit) :
    a.step e.step = ((a.areaOf e).answerTo e, a.edit e) := by
  cases e with
  | map va pa flags => exact map_eq_edit hfree va pa flags
  | unmap va =>
    refine Prod.ext ?_ (unmap_eq_edit a va)
    cases a.areaOf (.unmap va) <;> rfl

theorem areaOf_congr (hs : e.va.slotIndex = e'.va.slotIndex) : a.areaOf e = a.areaOf e' := congrArg a.area hs

theorem areaOf_edit_of_ne (hs : e.va.slotIndex ≠ e'.va.slotIndex) : (a.edit e).areaOf e' = a.areaOf e' :=
  Function.update_of_ne hs.symm _ _

theorem areaOf_edit_of_eq (hs : e.va.slotIndex = e'.va.slotIndex) :
    (a.edit e).areaOf e' = (a.areaOf e').edit e := by
  simp only [areaOf, ← hs]
  exact Function.update_self _ _ _

theorem answerTo_edit (a : AddressSpace) (e e' : PageEdit) :
    ((a.edit e).areaOf e').answerTo e' = (a.areaOf e').answerTo e' := by
  by_cases hs : e.va.slotIndex = e'.va.slotIndex
  · rw [areaOf_edit_of_eq hs, Area.answerTo_edit]
  · rw [areaOf_edit_of_ne hs]

theorem framesFor_comm (a : AddressSpace) (e e' : PageEdit) :
    (a.areaOf e).framesFor e + ((a.edit e).areaOf e').framesFor e' =
      (a.areaOf e').framesFor e' + ((a.edit e').areaOf e).framesFor e := by
  by_cases hs : e.va.slotIndex = e'.va.slotIndex
  · rw [areaOf_edit_of_eq hs, areaOf_edit_of_eq hs.symm, areaOf_congr hs]
    exact Area.framesFor_comm _ e e'
  · rw [areaOf_edit_of_ne hs, areaOf_edit_of_ne (Ne.symm hs), Nat.add_comm]

section Comm

variable (hne : e.va.page .small ≠ e'.va.page .small)

include hne

theorem entryIndex_ne (hs : e.va.slotIndex = e'.va.slotIndex) : e.va.entryIndex ≠ e'.va.entryIndex :=
  fun hk => hne ((Address.page_eq_iff _ _).2 ⟨hs, hk⟩)

theorem edit_comm (a : AddressSpace) : (a.edit e).edit e' = (a.edit e').edit e := by
  have hframes := framesFor_comm a e e'
  refine AddressSpace.ext ?_ ?_
  · show Function.update (Function.update a.area e.va.slotIndex _) e'.va.slotIndex
        (((a.edit e).areaOf e').edit e') =
      Function.update (Function.update a.area e'.va.slotIndex _) e.va.slotIndex
        (((a.edit e').areaOf e).edit e)
    by_cases hs : e.va.slotIndex = e'.va.slotIndex
    · rw [areaOf_edit_of_eq hs, areaOf_edit_of_eq hs.symm, areaOf_congr hs, hs, Function.update_idem,
        Function.update_idem, Area.edit_comm (entryIndex_ne hne hs)]
    · rw [areaOf_edit_of_ne hs, areaOf_edit_of_ne (Ne.symm hs)]
      exact Function.update_comm hs _ _ _
  · show a.free - (a.areaOf e).framesFor e - ((a.edit e).areaOf e').framesFor e' =
      a.free - (a.areaOf e').framesFor e' - ((a.edit e').areaOf e).framesFor e
    omega

theorem drops_comm (a : AddressSpace) :
    ((a.areaOf e).drops e ++ ((a.edit e).areaOf e').drops e').Perm
      ((a.areaOf e').drops e' ++ ((a.edit e').areaOf e).drops e) := by
  by_cases hs : e.va.slotIndex = e'.va.slotIndex
  · rw [areaOf_edit_of_eq hs, areaOf_edit_of_eq hs.symm, areaOf_congr hs]
    exact Area.drops_comm (entryIndex_ne hne hs) hs _
  · rw [areaOf_edit_of_ne hs, areaOf_edit_of_ne (Ne.symm hs)]
    exact List.perm_append_comm

end Comm

end AddressSpace

/-! ## The pool -/

/-- The lowest free frame was taken again and again, which gave `fs` in this order. -/
inductive FramePool.TakesLowest : FramePool → List Frame → FramePool → Prop where
  | nil (p : FramePool) : TakesLowest p [] p
  | cons {p p₁ p' : FramePool} {f : Frame} {fs : List Frame} (ht : p.takeLowest? = some (f, p₁))
    (h : TakesLowest p₁ fs p') : TakesLowest p (f :: fs) p'

namespace FramePool.TakesLowest

variable {p p' p'' : FramePool} {fs gs : List Frame}

theorem append (h : p.TakesLowest fs p') (h' : p'.TakesLowest gs p'') : p.TakesLowest (fs ++ gs) p'' := by
  induction h with
  | nil => exact h'
  | cons ht _ ih => exact .cons ht (ih h')

/-- How many frames were taken decides which they were. -/
theorem unique (h : p.TakesLowest fs p') (h' : p.TakesLowest gs p'') (hlen : fs.length = gs.length) :
    fs = gs ∧ p' = p'' := by
  induction h generalizing gs with
  | nil =>
    cases h' with
    | nil => exact ⟨rfl, rfl⟩
    | cons => cases hlen
  | cons ht _ ih =>
    cases h' with
    | nil => cases hlen
    | cons ht' h' =>
      rw [ht] at ht'
      cases ht'
      obtain ⟨rfl, rfl⟩ := ih h' (Nat.succ.inj hlen)
      exact ⟨rfl, rfl⟩

end FramePool.TakesLowest

/-! ## The tables -/

namespace Tables

variable {t t' t'' : Tables} {e e' : PageEdit} {fs gs : List Frame} {r : Except StepError Answer × Tables}

/-- Between `t` and `t'`, the lowest free frames became tables, and `fs` were they. -/
structure Links (t : Tables) (fs : List Frame) (t' : Tables) : Prop where
  pool : t.pool.TakesLowest fs t'.pool
  owned : ∀ f, f ∈ t'.owned ↔ f ∈ t.owned ∨ f ∈ fs
  taken : t'.taken = t.taken + fs.length
  returned : t'.returned = t.returned

namespace Links

theorem of_owned_eq (hpool : t'.pool = t.pool) (howned : t'.owned = t.owned) (htaken : t'.taken = t.taken)
    (hreturned : t'.returned = t.returned) : t.Links [] t' where
  pool := hpool ▸ .nil t.pool
  owned f := by simp [howned]
  taken := htaken
  returned := hreturned

theorem refl (t : Tables) : t.Links [] t := of_owned_eq rfl rfl rfl rfl

theorem trans (h : t.Links fs t') (h' : t'.Links gs t'') : t.Links (fs ++ gs) t'' where
  pool := h.pool.append h'.pool
  owned f := by rw [h'.owned, h.owned, List.mem_append, or_assoc]
  taken := by rw [h'.taken, h.taken, List.length_append, Nat.add_assoc]
  returned := h'.returned.trans h.returned

theorem put (h : t.Sound) {va : VirtualAddress} {f : Frame} (hs : va.slotIndex ≠ selfMapSlot)
    (hf : t.table? va.slotIndex = some f) (e : EntryBits) : t.Links [] (t.put va ⟨f, va.entryIndex⟩ e) :=
  of_owned_eq rfl (owned_setEntry h hs hf _ e) rfl rfl

theorem link (h : t.Sound) {i : SlotIndex} {f : Frame} {pool : FramePool} (hs : i ≠ selfMapSlot)
    (hc : (t.slot i).content? = none) (ht : t.pool.takeLowest? = some (f, pool)) :
    t.Links [f] (t.link i f pool) where
  pool := .cons ht (.nil _)
  owned g := by
    rw [List.mem_singleton]
    constructor
    · intro hg
      exact (owned_link_subset h hs hc ht hg).symm
    · rintro (hg | rfl)
      · exact (link_advances h hs hc ht).owned_subset hg
      · exact mem_owned (table?_link_self h hs hc ht)
  taken := rfl
  returned := rfl

end Links

/-- What an edit does to the tables `t`, `r` being its answer and the tables after it. -/
structure Edited (t : Tables) (e : PageEdit) (r : Except StepError Answer × Tables) : Prop where
  tidy : r.2.Tidy
  answer : r.1 = (t.space.areaOf e).answerTo e
  space : r.2.space = t.space.edit e
  drops : t.Drops ((t.space.areaOf e).drops e) r.2
  links : ∃ fs, fs.length = (t.space.areaOf e).framesFor e ∧ t.Links fs r.2

theorem map_spends (h : t.Tidy) (hfree : t.pool.free ≠ 0) (va : VirtualAddress) (pa : PhysicalAddress)
    (flags : EntryBits) :
    t.Drops ((t.area va.slotIndex).drops (.map va pa flags)) (t.map va pa flags).2 ∧
      ∃ fs, fs.length = (t.area va.slotIndex).framesFor (.map va pa flags) ∧
        t.Links fs (t.map va pa flags).2 := by
  have hl := located t va true
  unfold map
  generalize t.locate va true = r at hl ⊢
  obtain ⟨r, t'⟩ := r
  cases hl with
  | window hs => rw [hs, area_selfMap]; exact ⟨.of_eq rfl, [], rfl, .refl _⟩
  | large hs hc => rw [area_of_large hs hc]; exact ⟨.of_eq rfl, [], rfl, .refl _⟩
  | noFrame hc ht => exact absurd ((FramePool.takeLowest?_eq_none_iff h.sound.pool).1 ht) hfree
  | table hs hf => rw [area_of_table hs hf]; exact ⟨put_drops .., [], rfl, .put h.sound hs hf _⟩
  | @created f pool hs hc ht =>
    rw [h.sound.area_eq_absent hc]
    have hlink := Links.link h.sound hs hc ht
    have hput := Links.put (link_sound h.sound hs hc ht) hs (table?_link_self h.sound hs hc ht)
      (.leaf (pa.page .small) flags)
    exact ⟨(link_drops ..).trans (put_drops ..), [f], rfl, hlink.trans hput⟩

theorem isSome_pages_iff {f : Frame} {k : EntryIndex} :
    (t.pages f k).isSome ↔ (t.entry f k).present = true := by
  unfold pages EntryBits.asMapping
  split <;> simp [*]

theorem unmap_spends (h : t.Tidy) (va : VirtualAddress) :
    t.Drops ((t.area va.slotIndex).drops (.unmap va)) (t.unmap va) ∧ t.Links [] (t.unmap va) := by
  have hl := located t va false
  unfold unmap
  generalize t.locate va false = r at hl ⊢
  obtain ⟨r, t'⟩ := r
  cases hl with
  | window hs => rw [hs, area_selfMap]; exact ⟨.of_eq rfl, .refl _⟩
  | large hs hc => rw [area_of_large hs hc]; exact ⟨.of_eq rfl, .refl _⟩
  | absent hc => rw [h.sound.area_eq_absent hc]; exact ⟨.of_eq rfl, .refl _⟩
  | table hs hf =>
    rw [area_of_table hs hf]
    simp only [Area.drops, isSome_pages_iff]
    split
    · exact ⟨put_drops .., .put h.sound hs hf _⟩
    · exact ⟨.of_eq rfl, .refl _⟩

theorem step_edited (h : t.Tidy) (hfree : t.pool.free ≠ 0) (e : PageEdit) : t.Edited e (t.step e.step) := by
  have hstep : t.space.step e.step = _ := AddressSpace.step_edit hfree e
  obtain ⟨htidy, hspace, hanswer⟩ := step_simulates h e.step
  rw [hstep] at hspace hanswer
  cases e with
  | map va pa flags =>
    obtain ⟨hdrops, hlinks⟩ := map_spends h hfree va pa flags
    exact ⟨htidy, hanswer trivial, hspace, hdrops, hlinks⟩
  | unmap va =>
    obtain ⟨hdrops, hlinks⟩ := unmap_spends h va
    refine ⟨htidy, hanswer trivial, hspace, hdrops, [], ?_, hlinks⟩
    cases t.space.areaOf (.unmap va) <;> rfl

namespace Edited

/-- No edit takes more than one frame. -/
theorem free_ne_zero (hx : t.Edited e r) (hfree : 2 ≤ t.pool.free) : r.2.pool.free ≠ 0 := by
  have hspace : r.2.pool.free = t.pool.free - (t.space.areaOf e).framesFor e :=
    congrArg AddressSpace.free hx.space
  have hle := (t.space.areaOf e).framesFor_le e
  omega

variable {r' s s' : Except StepError Answer × Tables}

/-- Both orders make tables of the same frames. -/
theorem links_comm (hr : t.Edited e r) (hr' : r.2.Edited e' r') (hs : t.Edited e' s) (hs' : s.2.Edited e s') :
    ∃ fs, t.Links fs r'.2 ∧ t.Links fs s'.2 := by
  obtain ⟨fs, hfs, hl⟩ := hr.links
  obtain ⟨fs', hfs', hl'⟩ := hr'.links
  obtain ⟨gs, hgs, hk⟩ := hs.links
  obtain ⟨gs', hgs', hk'⟩ := hs'.links
  have hlen : (fs ++ fs').length = (gs ++ gs').length := by
    rw [List.length_append, List.length_append, hfs, hfs', hgs, hgs', hr.space, hs.space]
    exact AddressSpace.framesFor_comm t.space e e'
  have hlr := hl.trans hl'
  have hls := hk.trans hk'
  obtain ⟨heq, -⟩ := hlr.pool.unique hls.pool hlen
  exact ⟨fs ++ fs', hlr, heq ▸ hls⟩

end Edited

end Tables

/-! ## Both orders -/

namespace Holding

variable {u v : Holding} {t t₁ t₂ : Tables} {fs : List Frame}

theorem Backed.alike (h₁ : Backed .windows u t₁) (h₂ : Backed .windows v t₂) (ht₁ : t₁.Tidy) (ht₂ : t₂.Tidy)
    (hspace : t₂.space = t₁.space) (hl₁ : t.Links fs t₁) (hl₂ : t.Links fs t₂) : u.Alike v := by
  have hanswer (p : SpaceStep) (hp : p.Public) : v.answer (.space p) = u.answer (.space p) := by
    have hu : u.answer (.space p) = _ := (h₁.implements ht₁).answers p hp
    have hv : v.answer (.space p) = _ := (h₂.implements ht₂).answers p hp
    rw [hu, hv, hspace]
  refine ⟨?_, ?_, ?_, ?_, ?_, ?_⟩
  · intro va hva
    exact hanswer _ (Address.slotIndex_ne_selfMap_iff.2 hva)
  · intro va
    exact hanswer (.regionOf va) trivial
  · rw [(Standing.backed h₁).owned, (Standing.backed h₂).owned]
    ext f
    exact (hl₂.owned f).trans (hl₁.owned f).symm
  · rw [h₁.mirrors.pool, h₂.mirrors.pool]
    exact (hl₂.pool.unique hl₁.pool rfl).2
  · rw [h₁.mirrors.taken, h₂.mirrors.taken, hl₁.taken, hl₂.taken]
  · rw [h₁.mirrors.returned, h₂.mirrors.returned, hl₁.returned, hl₂.returned]

/-- Two edits of different pages may be made in either order. -/
theorem Backed.commutes (h : Backed .windows u t) (ht : t.Tidy) (hfree : 2 ≤ t.pool.free) {e e' : PageEdit}
    (hne : e.va.page .small ≠ e'.va.page .small) : u.Commutes e.step e'.step := by
  have hr := Tables.step_edited ht (by omega) e
  have hs := Tables.step_edited ht (by omega) e'
  have hr' := Tables.step_edited hr.tidy (hr.free_ne_zero hfree) e'
  have hs' := Tables.step_edited hs.tidy (hs.free_ne_zero hfree) e
  have h₁ := h.next_space e.step
  have h₂ := h.next_space e'.step
  obtain ⟨fs, hl, hk⟩ := Tables.Edited.links_comm hr hr' hs hs'
  refine ⟨?_, ?_, ?_, ?_⟩
  · rw [h₂.answer_space, h.answer_space, hs'.answer, hr.answer, hs.space, AddressSpace.answerTo_edit]
  · rw [h₁.answer_space, h.answer_space, hr'.answer, hs.answer, hr.space, AddressSpace.answerTo_edit]
  · rw [h.callsOf_eq _ hr.drops, h₁.callsOf_eq _ hr'.drops, h.callsOf_eq _ hs.drops,
      h₂.callsOf_eq _ hs'.drops, ← List.map_append, ← List.map_append, hr.space, hs.space]
    exact (AddressSpace.drops_comm hne t.space).map _
  · refine (h₁.next_space e'.step).alike (h₂.next_space e.step) hr'.tidy hs'.tidy ?_ hl hk
    rw [hr'.space, hs'.space, hr.space, hs.space, AddressSpace.edit_comm hne]

/-- Whatever happened since boot, as long as two frames are free, edits of different pages commute. -/
theorem commutes_run {es : List Event} (hb : u.Booted) (hf : u.HarmlessRun es)
    (hfree : 2 ≤ (u.run es).session.machine.pool.free) {e e' : PageEdit}
    (hne : e.va.page .small ≠ e'.va.page .small) : (u.run es).Commutes e.step e'.step := by
  obtain ⟨t, ht, h⟩ := hb.run_tidy hf
  rw [h.mirrors.pool] at hfree
  exact h.commutes ht hfree hne

/-- Two regions that have neither pages nor tables then. -/
def releases : List Event := [.space (.releaseLarge ⟨0x400000⟩), .space (.releaseLarge ⟨0x800000⟩)]

theorem commutes_run_small : 2 ≤ (smallBooted.run releases).session.machine.pool.free ∧
    (smallBooted.run releases).Commutes (PageEdit.map ⟨0x403000⟩ ⟨0x5000⟩ ⟨3⟩).step
      (PageEdit.map ⟨0x804000⟩ ⟨0x6000⟩ ⟨3⟩).step := by
  have hf : smallBooted.HarmlessRun releases := ⟨trivial, trivial, trivial⟩
  have hfree : 2 ≤ (smallBooted.run releases).session.machine.pool.free := by decide +kernel
  exact ⟨hfree, commutes_run booted_small hf hfree (by decide)⟩

/-- Both edits make a table, and the window shows which of them came first. -/
example :
    (smallBooted.run [.space (.releaseLarge ⟨0x400000⟩), .space (.releaseLarge ⟨0x800000⟩),
      .space (.map ⟨0x403000⟩ ⟨0x5000⟩ ⟨3⟩), .space (.map ⟨0x804000⟩ ⟨0x6000⟩ ⟨3⟩)]).answer
        (.space (.translate ⟨0xFFC01000⟩)) = .ok (.translation ⟨0x12000⟩ ⟨7⟩) ∧
    (smallBooted.run [.space (.releaseLarge ⟨0x400000⟩), .space (.releaseLarge ⟨0x800000⟩),
      .space (.map ⟨0x804000⟩ ⟨0x6000⟩ ⟨3⟩), .space (.map ⟨0x403000⟩ ⟨0x5000⟩ ⟨3⟩)]).answer
        (.space (.translate ⟨0xFFC01000⟩)) = .ok (.translation ⟨0x13000⟩ ⟨7⟩) := by
  decide +kernel

/-- The last free frame goes to the edit that comes first. -/
example :
    (smallBooted.run [.space (.releaseLarge ⟨0x400000⟩), .space (.releaseLarge ⟨0x800000⟩),
      .pool (.takeMany 5)]).answer (.space (.map ⟨0x403000⟩ ⟨0x5000⟩ ⟨3⟩)) = .ok .nothing ∧
    (smallBooted.run [.space (.releaseLarge ⟨0x400000⟩), .space (.releaseLarge ⟨0x800000⟩),
      .pool (.takeMany 5), .space (.map ⟨0x804000⟩ ⟨0x6000⟩ ⟨3⟩)]).answer
        (.space (.map ⟨0x403000⟩ ⟨0x5000⟩ ⟨3⟩)) = .error (.map .noFrame) := by
  decide +kernel

end Holding

end Paging
