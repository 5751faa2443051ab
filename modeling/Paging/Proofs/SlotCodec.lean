import Paging.Proofs.Word

/-!
# Writing and reading a directory slot

A slot is one word with two layouts that overlap: a frame of 20 bits or a 4 MiB page of 10, told apart by
bit 7, which is also one of the flags that a caller hands in. `codec_inverse` says that neither layout
gets into the way of the other. Whatever flags and address are written, the word is the flags below the
address with bit 7 forced, and reading gives back what was written (`WritesLink`, `WritesLarge`); whatever
word is read, writing back what was read gives the word (`ReadsBack`). No value that is written is too
large for its field (`link?`, `large?`).
-/

namespace Paging

namespace DirEntry

/-- What a link to the table in `f` is, whatever flags are handed in. -/
structure WritesLink (flags : TableLink) (f : Frame) : Prop where
  fits : link? flags f = some (link flags f)
  bits : (link flags f).bits = flags.bits &&& 0xF7F ||| 0x1 ||| f.base.val
  content : (link flags f).content? = some (.table f ⟨(link flags f).bits⟩)

/-- What a mapping of the 4 MiB page `p` is, whatever flags are handed in. -/
structure WritesLarge (flags : LargeLeaf) (p : Page .physical .large) : Prop where
  fits : large? flags p = some (large flags p)
  bits : (large flags p).bits = flags.bits &&& 0x003FFFFF ||| 0x81 ||| p.base.val
  content : (large flags p).content? = some (.large p ⟨(large flags p).bits⟩)

/-- What is read from a slot writes it again. -/
structure ReadsBack (e : DirEntry) : Prop where
  absent : e.content? = none ↔ e.bits &&& 0x01 = 0
  table : ∀ f l, e.content? = some (.table f l) → e.bits &&& 0x80 = 0 ∧ link l f = e
  large : ∀ p l, e.content? = some (.large p l) → e.bits &&& 0x80 ≠ 0 ∧ DirEntry.large l p = e

/-! ## Reading -/

variable {e : DirEntry}

theorem content?_eq_none_iff : e.content? = none ↔ e.bits &&& 0x01 = 0 := by
  rw [content?_eq]
  by_cases h1 : e.bits &&& 0x01 = 0
  · simp [h1]
  · by_cases h2 : e.bits &&& 0x80 = 0 <;> simp [h1, h2]

/-- A present slot without bit 7 is the link that is read from it. -/
theorem link_of_present (hp : e.present = true) (hs : e.pageSize = false) :
    link ⟨e.bits⟩ (TableLink.mk e.bits).frame = e := by
  have hpresent : TableLink.presentField.put e.bits 1 = e.bits :=
    Field.put_test (f := TableLink.presentField) (b := true) rfl hp
  have hframe : TableLink.frameField.put e.bits (TableLink.frameField.get e.bits) = e.bits :=
    Field.put_get _ _
  have hsize : LargeLeaf.pageSizeField.put e.bits 0 = e.bits :=
    Field.put_test (f := LargeLeaf.pageSizeField) (b := false) rfl hs
  apply DirEntry.ext
  simp only [link, TableLink.withPresent, TableLink.withFrame, TableLink.frame]
  rw [hpresent, hframe, hsize]

/-- A present slot with bit 7 is the mapping that is read from it. -/
theorem large_of_present (hp : e.present = true) (hs : e.pageSize = true) :
    DirEntry.large ⟨e.bits⟩ (LargeLeaf.mk e.bits).page = e := by
  have hpresent : LargeLeaf.presentField.put e.bits 1 = e.bits :=
    Field.put_test (f := LargeLeaf.presentField) (b := true) rfl hp
  have hpage : LargeLeaf.pageField.put e.bits (LargeLeaf.pageField.get e.bits) = e.bits :=
    Field.put_get _ _
  have hsize : LargeLeaf.pageSizeField.put e.bits 1 = e.bits :=
    Field.put_test (f := LargeLeaf.pageSizeField) (b := true) rfl hs
  apply DirEntry.ext
  simp only [DirEntry.large, LargeLeaf.withPresent, LargeLeaf.withPage, LargeLeaf.page]
  rw [hpresent, hpage, hsize]

theorem readsBack (e : DirEntry) : e.ReadsBack where
  absent := content?_eq_none_iff
  table f l h := by
    unfold content? at h
    split at h
    · rename_i hp
      split at h
      · cases h
      · rename_i hs
        obtain ⟨rfl, rfl⟩ := SlotContent.table.inj (Option.some.inj h)
        have hclear : ¬e.bits &&& 0x80 ≠ 0 := by rwa [pageSize_iff] at hs
        exact ⟨not_not.1 hclear, link_of_present hp (by simpa using hs)⟩
    · cases h
  large p l h := by
    unfold content? at h
    split at h
    · rename_i hp
      split at h
      · rename_i hs
        obtain ⟨rfl, rfl⟩ := SlotContent.large.inj (Option.some.inj h)
        exact ⟨(pageSize_iff e).1 hs, large_of_present hp hs⟩
      · cases h
    · cases h

/-- **Writing and reading a slot are inverse to each other**, for all flags, all addresses and all
words. -/
theorem codec_inverse : (∀ flags f, WritesLink flags f) ∧ (∀ flags p, WritesLarge flags p) ∧
    ∀ e : DirEntry, e.ReadsBack := by
  refine ⟨?_, ?_, readsBack⟩
  · intro flags f
    exact ⟨link?_eq flags f, bits_link flags f, content?_link flags f⟩
  · intro flags p
    exact ⟨large?_eq flags p, bits_large flags p, content?_large flags p⟩

/-- Any word will do for flags: its bit 7 and its address are dropped. -/
example : (link ⟨0xDEADBEEF⟩ (Page.ofNumber 7)).bits = 0x7E6F := by decide

end DirEntry

end Paging
