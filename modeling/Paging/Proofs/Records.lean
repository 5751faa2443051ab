import Mathlib.Data.List.Pairwise
import Mathlib.Data.List.Sort
import Paging.Proofs.Word
import Paging.Word.Edit

/-!
# Words are records

The members of each of the seven words lie side by side with its padding, from bit 0 to bit 31: every bit
belongs to one of them, and a word is the sum of what they hold (`WordKind.Tiled`). So a word is a record.
What edits make of it is said by what they store and where (`WordKind.stores`): a field holds the last number
that was stored in it, every bit of no field that was stored to is as it was, padding included, and edits that
store to different fields may be swapped (`WordKind.Lawful`). An edit that is refused stores nothing. The
address of a 4 MiB page is stored along with the bit for the page size, all other edits store to one field.

`lawful_records` says this for all words and all edits, and of the two registers that are made as a whole:
`CR3` is given by what is read from it (`Cr3.IsDetermined`), and turning 4 MiB pages on changes nothing else in
`CR4` (`Cr4.TurnsOn`).
-/

namespace Paging

namespace Field

/-- Bit `j` belongs to the field. -/
def Covers (f : Field) (j : Nat) : Prop := f.low ≤ j ∧ j < f.low + f.width

instance (f : Field) (j : Nat) : Decidable (f.Covers j) := inferInstanceAs (Decidable (_ ∧ _))

/-- Fields that lie side by side in the bits from `lo` up to `hi`. -/
def Tiles : Nat → List Field → Nat → Prop
  | lo, [], hi => lo = hi
  | lo, f :: fs, hi => f.low = lo ∧ Tiles (lo + f.width) fs hi

instance decidableTiles : ∀ lo fs hi, Decidable (Tiles lo fs hi)
  | lo, [], hi => inferInstanceAs (Decidable (lo = hi))
  | lo, f :: fs, hi =>
    have := decidableTiles (lo + f.width) fs hi
    inferInstanceAs (Decidable (_ ∧ _))

/-- `w` with numbers stored in fields, one after the other. -/
def putAll (w : UInt32) (ss : List (Field × Nat)) : UInt32 := ss.foldl (fun w s => s.1.put w s.2) w

end Field

namespace WordKind

def fields (k : WordKind) : List Field := k.layout.members.map (·.field)

/-- The bits that no member names. -/
def padding : WordKind → List Field
  | entry | cr3 => []
  | link => TableLink.padding
  | largeLeaf => LargeLeaf.padding
  | cr0 => Cr0.padding
  | cr4 => Cr4.padding
  | features => Features.padding

/-- Members and padding. -/
def parts (k : WordKind) : List Field := k.fields ++ k.padding

/-- The field of the address that can be set as a whole, and the size of the page that it names. -/
def addressField? : WordKind → Option (Field × PageSize)
  | entry => some (EntryBits.frameField, .small)
  | link => some (TableLink.frameField, .small)
  | largeLeaf => some (LargeLeaf.pageField, .large)
  | _ => none

/-- The edits of a record: setting a member, or the address as a whole. -/
inductive Edits (k : WordKind) : WordEdit → Prop
  | put {m : Member} (h : m ∈ k.layout.members) (v : Nat) : Edits k (.put m v)
  | putChecked {m : Member} (h : m ∈ k.layout.members) (v : Nat) : Edits k (.putChecked m v)
  | address (h : k.addressField?.isSome) (a : PhysicalAddress) : Edits k (.address a)

/-- What an edit stores in which fields. A number that does not fit is not stored. -/
def stores (k : WordKind) : WordEdit → List (Field × Nat)
  | .put m v => if v < m.field.size then [(m.field, v)] else []
  | .putChecked m v => if v < m.field.size then [(m.field, v)] else []
  | .address a =>
    match k with
    | entry => [(EntryBits.frameField, (a.page .small).number)]
    | link => [(TableLink.frameField, (a.page .small).number)]
    | largeLeaf => [(LargeLeaf.pageField, (a.page .large).number), (LargeLeaf.pageSizeField, 1)]
    | _ => []
  | _ => []

/-- The last number that was stored in field `f`. -/
def lastStored? (k : WordKind) (es : List WordEdit) (f : Field) : Option Nat :=
  (es.flatMap k.stores).reverse.lookup f

/-- The edits store to different fields. -/
def Apart (k : WordKind) (e e' : WordEdit) : Prop := ∀ s ∈ k.stores e, ∀ t ∈ k.stores e', s.1 ≠ t.1

/-- The parts of a word fill it, each in its place. -/
structure Tiled (k : WordKind) : Prop where
  /-- In the order of their bits, each part starts where the one before it ends. -/
  sideBySide : ∃ fs, fs.Perm k.parts ∧ Field.Tiles 0 fs 32
  unique : ∀ j < 32, ∃! f, f ∈ k.parts ∧ f.Covers j
  sum : ∀ w : UInt32, (k.parts.map fun f => f.get w * 2 ^ f.low).sum = w.toNat

/-- `w'` is what the edits `es` make of the record `w`. -/
structure Becomes (k : WordKind) (w : UInt32) (es : List WordEdit) (w' : UInt32) : Prop where
  get : ∀ m ∈ k.layout.members, m.field.get w' = (k.lastStored? es m.field).getD (m.field.get w)
  padding : ∀ f ∈ k.padding, f.get w' = f.get w
  /-- Bit by bit, however often the record was edited. -/
  keeps : ∀ j, (∀ m ∈ k.layout.members, (k.lastStored? es m.field).isSome → ¬m.field.Covers j) →
    w'.toNat.testBit j = w.toNat.testBit j

/-- The laws of a record. -/
structure Lawful (k : WordKind) : Prop where
  tiled : k.Tiled
  edited : ∀ w es, (∀ e ∈ es, k.Edits e) → ∃ answers w', k.editAll? w es = some (answers, w') ∧ k.Becomes w es w'
  accepted : ∀ w (m : Member) v, v < m.field.size → ∃ w', k.edit? w (.put m v) = some (.word w', w') ∧
    k.edit? w (.putChecked m v) = some (.word w', w')
  refused : ∀ w (m : Member) v, m.field.size ≤ v →
    k.edit? w (.put m v) = some (.fault (.fieldOverflow m.max), w) ∧
      k.edit? w (.putChecked m v) = some (.outOfRange, w)
  swap : ∀ w e e', k.Edits e → k.Edits e' → k.Apart e e' →
    (k.editAll? w [e, e']).map Prod.snd = (k.editAll? w [e', e]).map Prod.snd
  /-- An address goes into its field bit by bit, and with that of a 4 MiB page bit 7 is set. -/
  located : ∀ f s, k.addressField? = some (f, s) → ∀ w a, ∃ w', k.edit? w (.address a) = some (.word w', w') ∧
    ∀ j, w'.toNat.testBit j = if f.Covers j then (a.page s).number.testBit (j - f.low)
      else w.toNat.testBit j || (k = largeLeaf ∧ j = 7)
  /-- The address that is read is the one that was set last, from the start of its page. -/
  address : ∀ f s, k.addressField? = some (f, s) → ∀ w a es, (∀ e ∈ es, k.Edits e) →
    k.lastStored? es f = none →
    ∃ answers w', k.editAll? w (.address a :: es) = some (answers, w') ∧ k.address? w' = some (a.roundDown s)

end WordKind

namespace Cr3

/-- What is read from the register, with the reserved bits clear. -/
structure ReadsAs (c : Cr3) (a : PhysicalAddress) (pwt pcd : Bool) : Prop where
  directory : c.directory.base = a
  writeThrough : Cr3.writeThrough.test c.bits = pwt
  cacheDisable : Cr3.cacheDisable.test c.bits = pcd
  reserved : reservedLow.get c.bits = 0 ∧ reservedHigh.get c.bits = 0

/-- The register for a directory at `a` is the only one that reads as such. -/
structure IsDetermined (a : PhysicalAddress) (pwt pcd : Bool) : Prop where
  ok_iff : ∀ c, ofDirectory a pwt pcd = .ok c ↔ c.ReadsAs a pwt pcd
  aligned : a.isAligned .small → ∃ c, ofDirectory a pwt pcd = .ok c
  misaligned : ¬a.isAligned .small → ofDirectory a pwt pcd = .error .directoryMisaligned

end Cr3

/-- What turning 4 MiB pages on does. -/
structure Cr4.TurnsOn (c : Cr4) : Prop where
  keeps : ∀ j, j ≠ 4 → j ≠ 5 → c.forLargePages.bits.toNat.testBit j = c.bits.toNat.testBit j
  on : c.forLargePages.usesLargePages
  again : c.forLargePages.forLargePages = c.forLargePages
  eq_iff : c.forLargePages = c ↔ c.usesLargePages

/-! ## Storing in fields -/

namespace Field

variable {f : Field} {fs : List Field} {ss ts : List (Field × Nat)}

instance : Std.Symm Disjoint := ⟨fun _ _ h => Or.symm h⟩

theorem putAll_append (w : UInt32) (ss ts : List (Field × Nat)) :
    putAll w (ss ++ ts) = putAll (putAll w ss) ts := List.foldl_append

/-- One of disjoint fields holds the last number stored in it, or else what it held. -/
theorem get_putAll (hfs : fs.Pairwise Disjoint) (hf : f ∈ fs) (hss : ∀ s ∈ ss, s.1 ∈ fs ∧ s.2 < s.1.size)
    (w : UInt32) : f.get (putAll w ss) = (ss.reverse.lookup f).getD (f.get w) := by
  induction ss generalizing w with
  | nil => rfl
  | cons s ss ih =>
    obtain ⟨g, v⟩ := s
    obtain ⟨⟨hg, hv⟩, hss⟩ := List.forall_mem_cons.1 hss
    have hlater : f.get (putAll w ((g, v) :: ss)) = (ss.reverse.lookup f).getD (f.get (g.put w v)) := ih hss _
    rw [hlater, List.reverse_cons, List.lookup_append]
    -- Only if nothing is stored in `f` later does the first store matter.
    cases hlast : ss.reverse.lookup f with
    | some v' => rfl
    | none =>
      by_cases hgf : g = f
      · subst hgf
        rw [List.lookup_cons_self, get_put g w hv]
        rfl
      · have hd : Disjoint g f := hfs.forall hg hf hgf
        have hne : (f == g) = false := beq_false_of_ne (Ne.symm hgf)
        rw [List.lookup_cons, hne, get_put_of_disjoint hd]
        rfl

/-- A bit of no field that is stored to stays. -/
theorem testBit_putAll {j : Nat} (h : ∀ s ∈ ss, ¬s.1.Covers j) (w : UInt32) :
    (putAll w ss).toNat.testBit j = w.toNat.testBit j := by
  induction ss generalizing w with
  | nil => rfl
  | cons s ss ih =>
    obtain ⟨hs, hss⟩ := List.forall_mem_cons.1 h
    calc (putAll (s.1.put w s.2) ss).toNat.testBit j = (s.1.put w s.2).toNat.testBit j := ih hss _
      _ = w.toNat.testBit j := by rw [testBit_put]; exact if_neg hs

/-- A number may be stored before or after others in other fields. -/
theorem putAll_put (h : ∀ s ∈ ss, Disjoint f s.1) (w : UInt32) (v : Nat) :
    putAll (f.put w v) ss = f.put (putAll w ss) v := by
  induction ss generalizing w with
  | nil => rfl
  | cons s ss ih =>
    obtain ⟨hs, hss⟩ := List.forall_mem_cons.1 h
    calc putAll (s.1.put (f.put w v) s.2) ss = putAll (f.put (s.1.put w s.2) v) ss := by rw [put_comm hs]
      _ = f.put (putAll (s.1.put w s.2) ss) v := ih hss _

theorem putAll_comm (h : ∀ s ∈ ss, ∀ t ∈ ts, Disjoint s.1 t.1) (w : UInt32) :
    putAll (putAll w ss) ts = putAll (putAll w ts) ss := by
  induction ss generalizing w with
  | nil => rfl
  | cons s ss ih =>
    obtain ⟨hs, hss⟩ := List.forall_mem_cons.1 h
    calc putAll (putAll (s.1.put w s.2) ss) ts = putAll (putAll (s.1.put w s.2) ts) ss := ih hss _
      _ = putAll (s.1.put (putAll w ts) s.2) ss := by rw [putAll_put hs]

/-- A field apart from those that are stored to keeps its number. -/
theorem get_putAll_of_disjoint (h : ∀ s ∈ ss, Disjoint s.1 f) (w : UInt32) : f.get (putAll w ss) = f.get w := by
  induction ss generalizing w with
  | nil => rfl
  | cons s ss ih =>
    obtain ⟨hs, hss⟩ := List.forall_mem_cons.1 h
    calc f.get (putAll (s.1.put w s.2) ss) = f.get (s.1.put w s.2) := ih hss _
      _ = f.get w := get_put_of_disjoint hs w s.2

/-! ## Fields side by side -/

theorem Disjoint.not_covers {f g : Field} (h : Disjoint f g) {j : Nat} (hf : f.Covers j) : ¬g.Covers j := by
  simp only [Disjoint, Covers] at *
  omega

theorem Tiles.le_low {lo hi : Nat} (h : Tiles lo fs hi) (hf : f ∈ fs) : lo ≤ f.low := by
  induction fs generalizing lo with
  | nil => cases hf
  | cons g fs ih =>
    obtain ⟨hg, hrest⟩ := h
    rcases List.mem_cons.1 hf with rfl | hf
    · exact hg.ge
    · exact (Nat.le_add_right lo g.width).trans (ih hrest hf)

/-- They share no bit. -/
theorem Tiles.pairwise {lo hi : Nat} (h : Tiles lo fs hi) : fs.Pairwise Disjoint := by
  induction fs generalizing lo with
  | nil => exact .nil
  | cons g fs ih =>
    obtain ⟨hg, hrest⟩ := h
    refine .cons ?_ (ih hrest)
    intro f hf
    exact Or.inl (hg ▸ hrest.le_low hf)

/-- They leave no bit out. -/
theorem Tiles.exists_covers {lo hi j : Nat} (h : Tiles lo fs hi) (hlo : lo ≤ j) (hhi : j < hi) :
    ∃ f ∈ fs, f.Covers j := by
  induction fs generalizing lo with
  | nil =>
    obtain rfl : lo = hi := h
    exact absurd hhi (Nat.not_lt.2 hlo)
  | cons g fs ih =>
    obtain ⟨hg, hrest⟩ := h
    rcases Nat.lt_or_ge j (lo + g.width) with hj | hj
    · exact ⟨g, List.mem_cons_self, hg ▸ hlo, hg ▸ hj⟩
    · obtain ⟨f, hf, hcovers⟩ := ih hrest hj
      exact ⟨f, List.mem_cons_of_mem g hf, hcovers⟩

/-- What they hold adds up to the word, but for the bits below and above. -/
theorem Tiles.sum {lo hi : Nat} (h : Tiles lo fs hi) (w : UInt32) :
    (fs.map fun f => f.get w * 2 ^ f.low).sum + w.toNat / 2 ^ hi * 2 ^ hi = w.toNat / 2 ^ lo * 2 ^ lo := by
  induction fs generalizing lo with
  | nil =>
    obtain rfl : lo = hi := h
    rw [List.map_nil, List.sum_nil, Nat.zero_add]
  | cons g fs ih =>
    obtain ⟨rfl, hrest⟩ := h
    have hget : g.get w = w.toNat / 2 ^ g.low % 2 ^ g.width := by
      rw [get, size, Nat.one_shiftLeft, Nat.shiftRight_eq_div_pow]
    calc _ = g.get w * 2 ^ g.low + w.toNat / 2 ^ (g.low + g.width) * 2 ^ (g.low + g.width) := by
          rw [List.map_cons, List.sum_cons, Nat.add_assoc, ih hrest]
      _ = (w.toNat / 2 ^ g.low % 2 ^ g.width + w.toNat / 2 ^ g.low / 2 ^ g.width * 2 ^ g.width) * 2 ^ g.low := by
          rw [hget, Nat.pow_add, ← Nat.div_div_eq_div_mul, Nat.add_mul, Nat.mul_assoc (_ / _),
            Nat.mul_comm (2 ^ g.width)]
      _ = w.toNat / 2 ^ g.low * 2 ^ g.low := by rw [Nat.mod_add_div']

end Field

/-! ## Words as the sum of their parts -/

namespace WordKind

variable {k : WordKind} {e e' : WordEdit} {es : List WordEdit} {s : Field × Nat}

theorem tiles_parts (k : WordKind) : Field.Tiles 0 (k.parts.insertionSort (·.low ≤ ·.low)) 32 := by
  cases k <;> decide

theorem perm_parts (k : WordKind) : (k.parts.insertionSort (·.low ≤ ·.low)).Perm k.parts :=
  List.perm_insertionSort _ _

theorem pairwise_parts (k : WordKind) : k.parts.Pairwise Field.Disjoint :=
  ((perm_parts k).pairwise_iff fun h => Or.symm h).1 (tiles_parts k).pairwise

theorem pairwise_fields (k : WordKind) : k.fields.Pairwise Field.Disjoint :=
  (List.pairwise_append.1 (pairwise_parts k)).1

theorem tiled (k : WordKind) : k.Tiled where
  sideBySide := ⟨_, perm_parts k, tiles_parts k⟩
  unique j hj := by
    obtain ⟨f, hf, hcovers⟩ := (tiles_parts k).exists_covers j.zero_le hj
    refine ⟨f, ⟨(perm_parts k).mem_iff.1 hf, hcovers⟩, ?_⟩
    rintro g ⟨hg, hg'⟩
    by_contra hne
    exact ((pairwise_parts k).forall hg ((perm_parts k).mem_iff.1 hf) hne).not_covers hg' hcovers
  sum w := by
    have hsum := (tiles_parts k).sum w
    rw [((perm_parts k).map _).sum_nat] at hsum
    have hlt := w.toNat_lt
    omega

/-- A word is given by what its parts hold. -/
theorem eq_of_get {a b : UInt32} (h : ∀ f ∈ k.parts, f.get a = f.get b) : a = b := by
  apply UInt32.toNat_inj.1
  rw [← (tiled k).sum a, ← (tiled k).sum b]
  congr 1
  exact List.map_congr_left fun f hf => by rw [h f hf]

/-! ## Edits as stores -/

theorem field_mem_fields {m : Member} (h : m ∈ k.layout.members) : m.field ∈ k.fields := List.mem_map_of_mem h

/-- Edits store in the fields of the record, and only numbers that fit. -/
theorem mem_stores (h : k.Edits e) (hs : s ∈ k.stores e) : s.1 ∈ k.fields ∧ s.2 < s.1.size := by
  cases h with
  | put hm v | putChecked hm v =>
    rw [stores] at hs
    split at hs
    · rename_i hv
      obtain rfl := List.mem_singleton.1 hs
      exact ⟨field_mem_fields hm, hv⟩
    · cases hs
  | address hk a =>
    cases k with
    | entry =>
      obtain rfl := List.mem_singleton.1 hs
      exact ⟨(by decide : EntryBits.frameField ∈ entry.fields), (a.page .small).number_lt⟩
    | link =>
      obtain rfl := List.mem_singleton.1 hs
      exact ⟨(by decide : TableLink.frameField ∈ link.fields), (a.page .small).number_lt⟩
    | largeLeaf =>
      simp only [stores, List.mem_cons, List.not_mem_nil, or_false] at hs
      rcases hs with rfl | rfl
      · exact ⟨(by decide : LargeLeaf.pageField ∈ largeLeaf.fields), (a.page .large).number_lt⟩
      · decide
    | _ => cases hs

theorem mem_stores_of_edits (h : ∀ e ∈ es, k.Edits e) (hs : s ∈ es.flatMap k.stores) :
    s.1 ∈ k.fields ∧ s.2 < s.1.size := by
  obtain ⟨e, he, hs⟩ := List.mem_flatMap.1 hs
  exact mem_stores (h e he) hs

theorem edit?_put_of_lt {m : Member} {v : Nat} (h : v < m.field.size) (w : UInt32) :
    k.edit? w (.put m v) = some (written (m.field.put w v)) ∧
      k.edit? w (.putChecked m v) = some (written (m.field.put w v)) := by
  simp only [edit?, Field.put?_of_lt h, and_self]

theorem edit?_put_of_le {m : Member} {v : Nat} (h : m.field.size ≤ v) (w : UInt32) :
    k.edit? w (.put m v) = some (.fault (.fieldOverflow m.max), w) ∧
      k.edit? w (.putChecked m v) = some (.outOfRange, w) := by
  have hput : m.field.put? w v = none := if_neg (Nat.not_lt.2 h)
  simp only [edit?, hput, and_self]

/-- An edit leaves the word with what it stores. -/
theorem edit?_eq (h : k.Edits e) (w : UInt32) : ∃ a, k.edit? w e = some (a, Field.putAll w (k.stores e)) := by
  cases h with
  | @put m hm v =>
    rcases Nat.lt_or_ge v m.field.size with hv | hv
    · exact ⟨_, by rw [(edit?_put_of_lt hv w).1, stores, if_pos hv]; rfl⟩
    · exact ⟨_, by rw [(edit?_put_of_le hv w).1, stores, if_neg (Nat.not_lt.2 hv)]; rfl⟩
  | @putChecked m hm v =>
    rcases Nat.lt_or_ge v m.field.size with hv | hv
    · exact ⟨_, by rw [(edit?_put_of_lt hv w).2, stores, if_pos hv]; rfl⟩
    · exact ⟨_, by rw [(edit?_put_of_le hv w).2, stores, if_neg (Nat.not_lt.2 hv)]; rfl⟩
  | address hk a =>
    cases k with
    | entry | link | largeLeaf => exact ⟨_, rfl⟩
    | _ => cases hk

theorem editAll?_eq (h : ∀ e ∈ es, k.Edits e) (w : UInt32) :
    ∃ answers, k.editAll? w es = some (answers, Field.putAll w (es.flatMap k.stores)) := by
  induction es generalizing w with
  | nil => exact ⟨[], rfl⟩
  | cons e es ih =>
    obtain ⟨he, hes⟩ := List.forall_mem_cons.1 h
    obtain ⟨a, ha⟩ := edit?_eq he w
    obtain ⟨as, has⟩ := ih hes (Field.putAll w (k.stores e))
    refine ⟨a :: as, ?_⟩
    rw [editAll?, ha, List.flatMap_cons, Field.putAll_append]
    simp [has]

theorem becomes (h : ∀ e ∈ es, k.Edits e) (w : UInt32) :
    k.Becomes w es (Field.putAll w (es.flatMap k.stores)) where
  get _ hm := Field.get_putAll (pairwise_fields k) (field_mem_fields hm) (fun _ hs => mem_stores_of_edits h hs) w
  padding f hf := by
    apply Field.get_putAll_of_disjoint
    intro s hs
    exact (List.pairwise_append.1 (pairwise_parts k)).2.2 s.1 (mem_stores_of_edits h hs).1 f hf
  keeps j hj := by
    apply Field.testBit_putAll
    intro s hs
    obtain ⟨m, hm, hfield⟩ := List.mem_map.1 (mem_stores_of_edits h hs).1
    rw [← hfield]
    apply hj m hm
    rw [lastStored?, List.lookup_isSome_iff]
    exact ⟨s, List.mem_reverse.2 hs, by rw [hfield, beq_self_eq_true]⟩

theorem swap (he : k.Edits e) (he' : k.Edits e') (h : k.Apart e e') (w : UInt32) :
    (k.editAll? w [e, e']).map Prod.snd = (k.editAll? w [e', e]).map Prod.snd := by
  have hboth : ∀ x ∈ [e, e'], k.Edits x := by simp [he, he']
  have hswapped : ∀ x ∈ [e', e], k.Edits x := by simp [he, he']
  have hdisjoint : ∀ s ∈ k.stores e, ∀ t ∈ k.stores e', s.1.Disjoint t.1 := by
    intro s hs t ht
    exact (pairwise_fields k).forall (mem_stores he hs).1 (mem_stores he' ht).1 (h s hs t ht)
  obtain ⟨_, hw⟩ := editAll?_eq hboth w
  obtain ⟨_, hw'⟩ := editAll?_eq hswapped w
  rw [hw, hw', Option.map_some, Option.map_some]
  simp only [List.flatMap_cons, List.flatMap_nil, List.append_nil, Field.putAll_append]
  rw [Field.putAll_comm hdisjoint]

/-! ## Addresses -/

/-- After an address is set, its field holds the number of the page. -/
theorem lastStored?_address {f : Field} {s : PageSize} (hf : k.addressField? = some (f, s))
    (hes : k.lastStored? es f = none) (a : PhysicalAddress) :
    k.lastStored? (.address a :: es) f = some (a.page s).number := by
  have hlast : (k.stores (.address a)).reverse.lookup f = some (a.page s).number := by
    cases k with
    | entry | link | largeLeaf => cases hf; rfl
    | _ => cases hf
  rw [lastStored?] at hes
  rw [lastStored?, List.flatMap_cons, List.reverse_append, List.lookup_append, hlast, hes, Option.none_or]

/-- The address that is read is where the page in the address field starts. -/
theorem address?_eq {f : Field} {s : PageSize} (hf : k.addressField? = some (f, s)) {w : UInt32}
    {p : Page .physical s} (h : f.get w = p.number) : k.address? w = some p.base := by
  cases k with
  | entry =>
    cases hf
    have hframe : (EntryBits.mk w).frame = p := Page.ext h
    rw [address?, hframe]
  | link =>
    cases hf
    have hframe : (TableLink.mk w).frame = p := Page.ext h
    rw [address?, hframe]
  | largeLeaf =>
    cases hf
    have hpage : (LargeLeaf.mk w).page = p := Page.ext h
    rw [address?, hpage]
  | _ => cases hf

theorem addressField_mem {f : Field} {s : PageSize} (hf : k.addressField? = some (f, s)) : f ∈ k.fields := by
  cases k with
  | entry | link | largeLeaf => cases hf; decide
  | _ => cases hf

theorem address?_of_edits {f : Field} {s : PageSize} (hf : k.addressField? = some (f, s))
    (hes : ∀ e ∈ es, k.Edits e) (hlast : k.lastStored? es f = none) (w : UInt32) (a : PhysicalAddress) :
    ∃ answers w', k.editAll? w (.address a :: es) = some (answers, w') ∧ k.address? w' = some (a.roundDown s) := by
  have hall : ∀ e ∈ .address a :: es, k.Edits e :=
    List.forall_mem_cons.2 ⟨.address (by rw [hf]; rfl) a, hes⟩
  obtain ⟨answers, hw⟩ := editAll?_eq hall w
  refine ⟨answers, _, hw, ?_⟩
  rw [← Address.base_page]
  apply address?_eq hf
  obtain ⟨m, hm, hfield⟩ := List.mem_map.1 (addressField_mem hf)
  have hget := (becomes hall w).get m hm
  rw [hfield, lastStored?_address hf hlast] at hget
  exact hget

/-- Where the bits of an address go. The one bit that is set along is that of the page size. -/
theorem located {f : Field} {s : PageSize} (hf : k.addressField? = some (f, s)) (w : UInt32)
    (a : PhysicalAddress) : ∃ w', k.edit? w (.address a) = some (.word w', w') ∧
      ∀ j, w'.toNat.testBit j = if f.Covers j then (a.page s).number.testBit (j - f.low)
        else w.toNat.testBit j || (k = largeLeaf ∧ j = 7) := by
  cases k with
  | entry | link =>
    cases hf
    refine ⟨_, rfl, ?_⟩
    intro j
    refine (Field.testBit_put _ _ _ j).trans ?_
    simp [Field.Covers]
  | largeLeaf =>
    cases hf
    refine ⟨_, rfl, ?_⟩
    intro j
    refine (Field.testBit_put LargeLeaf.pageSizeField _ _ j).trans ?_
    by_cases hj : j = 7
    · subst hj
      simp [Field.Covers, LargeLeaf.pageSizeField, LargeLeaf.pageField]
    · rw [if_neg (by simp only [LargeLeaf.pageSizeField]; omega), Field.testBit_put]
      simp [Field.Covers, hj]
  | _ => cases hf

example : largeLeaf.edit? 0 (.address ⟨0x00C01234⟩) = some (.word 0x00C00080, 0x00C00080) := by decide

theorem lawful (k : WordKind) : k.Lawful where
  tiled := tiled k
  located f s hf w a := located hf w a
  edited w es h := by
    obtain ⟨answers, hw⟩ := editAll?_eq h w
    exact ⟨answers, _, hw, becomes h w⟩
  accepted w m v h := ⟨_, edit?_put_of_lt h w⟩
  refused w m v h := edit?_put_of_le h w
  swap w e e' he he' h := swap he he' h w
  address f s hf w a es hes hlast := address?_of_edits hf hes hlast w a

end WordKind

/-! ## Registers -/

namespace Cr3

variable {a : PhysicalAddress} {pwt pcd : Bool} {c c' : Cr3}

/-- Each field holds what was put there, and the reserved ones nothing. -/
theorem readsAs_of_ofDirectory (h : ofDirectory a pwt pcd = .ok c) : c.ReadsAs a pwt pcd := by
  unfold ofDirectory at h
  split at h
  · rename_i ha
    cases h
    have hfits : ∀ s ∈ [(writeThrough, pwt.toNat), (cacheDisable, pcd.toNat), (directoryFrame, (a.page .small).number)],
        s.1 ∈ WordKind.cr3.fields ∧ s.2 < s.1.size := by
      have hnumber : (a.page .small).number < directoryFrame.size := (a.page .small).number_lt
      have hflag (b : Bool) : b.toNat < 2 := b.toNat_lt
      simp only [List.forall_mem_cons]
      exact ⟨⟨by decide, hflag pwt⟩, ⟨by decide, hflag pcd⟩, ⟨by decide, hnumber⟩, List.forall_mem_nil _⟩
    have hget {f : Field} (hf : f ∈ WordKind.cr3.fields) :=
      Field.get_putAll (WordKind.pairwise_fields .cr3) hf hfits 0
    have hdirectory : directory ⟨Field.putAll 0 _⟩ = a.page .small :=
      Page.ext (hget (f := directoryFrame) (by decide))
    exact {
      directory := (congrArg Page.base hdirectory).trans (Address.base_page_of_isAligned ha)
      writeThrough := Field.test_of_get (hget (by decide))
      cacheDisable := Field.test_of_get (hget (by decide))
      reserved := ⟨hget (by decide), hget (by decide)⟩ }
  · cases h

theorem ReadsAs.unique (h : c.ReadsAs a pwt pcd) (h' : c'.ReadsAs a pwt pcd) : c = c' := by
  have hdirectory : c.directory = c'.directory := by
    rw [← Page.page_base c.directory, h.directory, ← h'.directory, Page.page_base]
  -- Nothing of the register is padding.
  have hget : ∀ f ∈ WordKind.cr3.parts, f.get c.bits = f.get c'.bits := by
    intro f hf
    simp only [WordKind.parts, WordKind.padding, List.append_nil, WordKind.fields, WordKind.layout, layout,
      List.map_cons, List.map_nil, List.mem_cons, List.not_mem_nil, or_false] at hf
    rcases hf with rfl | rfl | rfl | rfl | rfl
    · rw [h.reserved.1, h'.reserved.1]
    · rw [Field.get_eq_toNat_test rfl, Field.get_eq_toNat_test rfl, h.writeThrough, h'.writeThrough]
    · rw [Field.get_eq_toNat_test rfl, Field.get_eq_toNat_test rfl, h.cacheDisable, h'.cacheDisable]
    · rw [h.reserved.2, h'.reserved.2]
    · exact congrArg Page.number hdirectory
  cases c
  cases c'
  exact congrArg Cr3.mk (WordKind.eq_of_get hget)

theorem isDetermined (a : PhysicalAddress) (pwt pcd : Bool) : IsDetermined a pwt pcd where
  ok_iff c := by
    refine ⟨readsAs_of_ofDirectory, ?_⟩
    intro h
    have haligned : a.isAligned .small := by
      rw [← h.directory]
      exact c.directory.isAligned_base
    obtain ⟨c', hc'⟩ : ∃ c', ofDirectory a pwt pcd = .ok c' := ⟨_, if_pos haligned⟩
    rw [hc', h.unique (readsAs_of_ofDirectory hc')]
  aligned h := ⟨_, if_pos h⟩
  misaligned h := if_neg h

end Cr3

namespace Cr4

theorem usesLargePages_forLargePages (c : Cr4) : c.forLargePages.usesLargePages := by
  have hpse : pageSizeExtension.test c.forLargePages.bits = true :=
    (Field.test_put_of_disjoint (by decide) _ _).trans (Field.test_put rfl c.bits true)
  have hpae : addressExtension.test c.forLargePages.bits = false := Field.test_put rfl _ false
  rw [usesLargePages, hpse, hpae]
  rfl

theorem forLargePages_eq_iff (c : Cr4) : c.forLargePages = c ↔ c.usesLargePages := by
  constructor
  · intro h
    rw [← h]
    exact usesLargePages_forLargePages c
  · intro h
    rw [usesLargePages, Bool.and_eq_true, Bool.not_eq_true'] at h
    have hpse : pageSizeExtension.put c.bits 1 = c.bits := Field.put_test (b := true) rfl h.1
    have hpae : addressExtension.put c.bits 0 = c.bits := Field.put_test (b := false) rfl h.2
    rw [forLargePages, hpse, hpae]

theorem turnsOn (c : Cr4) : c.TurnsOn where
  keeps j h4 h5 := by
    simp only [forLargePages, Field.testBit_put, addressExtension, pageSizeExtension]
    rw [if_neg (by omega), if_neg (by omega)]
  on := usesLargePages_forLargePages c
  again := (forLargePages_eq_iff _).2 (usesLargePages_forLargePages c)
  eq_iff := forLargePages_eq_iff c

end Cr4

/-- **The seven words are records**. -/
theorem lawful_records : (∀ k : WordKind, k.Lawful) ∧ (∀ a pwt pcd, Cr3.IsDetermined a pwt pcd) ∧
    ∀ c : Cr4, c.TurnsOn :=
  ⟨WordKind.lawful, Cr3.isDetermined, Cr4.turnsOn⟩

end Paging
