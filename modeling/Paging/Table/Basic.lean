import Paging.Table.Entry

/-!
# Page tables and page directories

Either fills one frame with 1024 words. `FrameWords` is such a frame's contents; `PageTable` and
`PageDirectory` are the two ways to look at it, so that a frame of memory becomes a table without
being copied. `mappings` lists what a table maps, in ascending order of the index.
-/

namespace Paging

/-- The contents of one frame. -/
abbrev FrameWords := Vector UInt32 1024

/-- The words `f 0`, `f 1`, … in this order. -/
def wordsOfFn {n : Nat} (f : Fin n → UInt32) : Vector UInt32 n := ⟨⟨List.ofFn f⟩, by simp⟩

theorem getElem_wordsOfFn {n : Nat} (f : Fin n → UInt32) (i : Nat) (h : i < n) :
    (wordsOfFn f)[i] = f ⟨i, h⟩ := by
  simp [wordsOfFn]

/-- The words of a list in its order, and zero after them. -/
def frameOfList (ws : List UInt32) : FrameWords := wordsOfFn fun i => ws.getD i 0

theorem frameOfList_map (f : Fin 1024 → UInt32) :
    frameOfList ((List.finRange 1024).map f) = wordsOfFn f := by
  have hplace (i : Fin 1024) : ((List.finRange 1024).map f).getD i.val 0 = f i := by
    simp [List.getD_eq_getElem?_getD]
  exact congrArg wordsOfFn (funext hplace)

@[ext] structure PageTable where
  words : FrameWords
  deriving DecidableEq

namespace PageTable

/-- The table without a mapping. -/
def empty : PageTable := ⟨Vector.replicate 1024 EntryBits.absent.bits⟩

def ofFn (f : EntryIndex → EntryBits) : PageTable := ⟨wordsOfFn fun i => (f i).bits⟩

def get (t : PageTable) (i : EntryIndex) : EntryBits := ⟨t.words[i]⟩

@[simp] theorem get_ofFn (f : EntryIndex → EntryBits) (i : EntryIndex) : (ofFn f).get i = f i :=
  EntryBits.ext (getElem_wordsOfFn _ i.val i.isLt)

def set (t : PageTable) (i : EntryIndex) (e : EntryBits) : PageTable := ⟨t.words.set i e.bits⟩

/-- Replaces the entry at `i` by what `f` makes of it, as through a reference to the entry. -/
def modify (t : PageTable) (i : EntryIndex) (f : EntryBits → EntryBits) : PageTable := t.set i (f (t.get i))

/-- Removes the mapping at `i`. -/
def clear (t : PageTable) (i : EntryIndex) : PageTable := t.set i .absent

@[simp] theorem get_empty (i : EntryIndex) : empty.get i = .absent := by
  simp [empty, get, EntryBits.absent]

theorem get_set (t : PageTable) (i j : EntryIndex) (e : EntryBits) :
    (t.set i e).get j = if i = j then e else t.get j := by
  simp only [get, set, Fin.getElem_fin, Vector.getElem_set, Fin.ext_iff]
  split <;> rfl

/-- The present entries with their indices, in ascending order. -/
def mappings (t : PageTable) : List (EntryIndex × EntryBits) :=
  ((List.finRange 1024).map fun i => (i, t.get i)).filter fun p => p.2.present

theorem mem_mappings {t : PageTable} {i : EntryIndex} {e : EntryBits} :
    (i, e) ∈ t.mappings ↔ e = t.get i ∧ e.present := by
  simp only [mappings, List.mem_filter, List.mem_map, List.mem_finRange, true_and, Prod.mk.injEq]
  constructor
  · rintro ⟨⟨j, rfl, rfl⟩, hp⟩
    exact ⟨rfl, hp⟩
  · rintro ⟨rfl, hp⟩
    exact ⟨⟨i, rfl, rfl⟩, hp⟩

theorem pairwise_mappings (t : PageTable) : t.mappings.Pairwise (·.1 < ·.1) := by
  refine List.Pairwise.filter _ ?_
  rw [List.pairwise_map]
  exact List.pairwise_lt_finRange 1024

end PageTable

@[ext] structure PageDirectory where
  words : FrameWords
  deriving DecidableEq

namespace PageDirectory

def ofFn (f : SlotIndex → DirEntry) : PageDirectory := ⟨wordsOfFn fun i => (f i).bits⟩

def get (d : PageDirectory) (i : SlotIndex) : DirEntry := ⟨d.words[i]⟩

@[simp] theorem get_ofFn (f : SlotIndex → DirEntry) (i : SlotIndex) : (ofFn f).get i = f i :=
  DirEntry.ext (getElem_wordsOfFn _ i.val i.isLt)

def set (d : PageDirectory) (i : SlotIndex) (e : DirEntry) : PageDirectory := ⟨d.words.set i e.bits⟩

end PageDirectory

end Paging
