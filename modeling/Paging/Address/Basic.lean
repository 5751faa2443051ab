import Paging.Address.Size

/-!
# Addresses, pages and offsets

An address is a 32-bit word that knows what it addresses. A page is its number, an offset the bytes
from the start of its page; `Address.page` and `Address.offset` split an address, `Page.join` puts
the parts together again. Page numbers and offsets are bounded by their types, so that joining never
carries.
-/

namespace Paging

/-- What a 32-bit address stands for: a plain number, a place in physical memory, or a place in the
virtual address space. -/
inductive AddressKind where
  | memory
  | physical
  | virtual
  deriving DecidableEq

@[ext] structure Address (k : AddressKind) where
  val : UInt32
  deriving DecidableEq

abbrev PhysicalAddress := Address .physical

abbrev VirtualAddress := Address .virtual

/-- A page of size `s`, given by its number: page `n` starts at `n * s.bytes`. -/
@[ext] structure Page (k : AddressKind) (s : PageSize) where
  number : Nat
  number_lt : number < s.pageCount
  deriving DecidableEq

/-- A frame is the 4 KiB unit in which physical memory is handed out. -/
abbrev Frame := Page .physical .small

/-- A byte offset inside a page of size `s`. -/
@[ext] structure Offset (s : PageSize) where
  bytes : Nat
  bytes_lt : bytes < s.bytes
  deriving DecidableEq

variable {k : AddressKind} {s : PageSize}

instance : LE (Address k) := ⟨fun a b => a.val ≤ b.val⟩
instance : LE (Page k s) := ⟨fun p q => p.number ≤ q.number⟩
instance : LE (Offset s) := ⟨fun o u => o.bytes ≤ u.bytes⟩

instance (a b : Address k) : Decidable (a ≤ b) := inferInstanceAs (Decidable (a.val ≤ b.val))
instance (p q : Page k s) : Decidable (p ≤ q) := inferInstanceAs (Decidable (p.number ≤ q.number))
instance (o u : Offset s) : Decidable (o ≤ u) := inferInstanceAs (Decidable (o.bytes ≤ u.bytes))

namespace Address

/-- The page of size `s` that contains `a`. -/
def page (a : Address k) (s : PageSize) : Page k s where
  number := a.val.toNat / s.bytes
  number_lt := by
    have h := a.val.toNat_lt
    cases s <;> simp only [PageSize.bytes, PageSize.pageCount] <;> omega

/-- How far into its page `a` lies. -/
def offset (a : Address k) (s : PageSize) : Offset s :=
  ⟨a.val.toNat % s.bytes, Nat.mod_lt _ s.bytes_pos⟩

def split (a : Address k) (s : PageSize) : Page k s × Offset s := (a.page s, a.offset s)

/-- `a` with the bits below the page boundary cleared. -/
def roundDown (a : Address k) (s : PageSize) : Address k := ⟨a.val &&& ~~~s.offsetMask⟩

/-- Whether `a` sits on a page boundary. -/
def isAligned (a : Address k) (s : PageSize) : Bool := a.val &&& s.offsetMask == 0

/-- `a + n`, unless that lies past the top of the address space. -/
def add? (a : Address k) (n : UInt32) : Option (Address k) :=
  if a.val.toNat + n.toNat < UInt32.size then some ⟨a.val + n⟩ else none

end Address

namespace Page

/-- The address of the first byte. -/
def base (p : Page k s) : Address k := ⟨UInt32.ofNat (p.number * s.bytes)⟩

/-- Page `n`, counted round the address space: the bits of `n` past its end are dropped. -/
def ofNumber (n : Nat) : Page k s := ⟨n % s.pageCount, Nat.mod_lt _ s.pageCount_pos⟩

/-- The page that starts at `a`, if one does. -/
def ofAligned? (a : Address k) : Option (Page k s) := if a.isAligned s then some (a.page s) else none

/-- The page `n` places further up, if there is one. -/
def advance? (p : Page k s) (n : Nat) : Option (Page k s) :=
  if h : p.number + n < s.pageCount then some ⟨p.number + n, h⟩ else none

/-- The next page up; the topmost has none. -/
def next? (p : Page k s) : Option (Page k s) := p.advance? 1

/-- The address `o` bytes into the page. -/
def join (p : Page k s) (o : Offset s) : Address k := ⟨UInt32.ofNat (p.number * s.bytes + o.bytes)⟩

/-- The page of the same number in another space. -/
def recast {k' : AddressKind} (p : Page k s) : Page k' s := ⟨p.number, p.number_lt⟩

/-- The 4 MiB page around a 4 KiB page. -/
def region (p : Page k .small) : Page k .large where
  number := p.number / 1024
  number_lt := by have := p.number_lt; simp only [PageSize.pageCount] at *; omega

/-- The place of a 4 KiB page in the 4 MiB page around it. -/
def place (p : Page k .small) : Fin 1024 := ⟨p.number % 1024, Nat.mod_lt _ (by decide)⟩

/-- The 4 KiB page at place `i` of a 4 MiB page. -/
def part (p : Page k .large) (i : Fin 1024) : Page k .small where
  number := p.number * 1024 + i.val
  number_lt := by have := p.number_lt; simp only [PageSize.pageCount] at *; omega

end Page

/-- The address of word `i` of a frame. -/
def Page.wordAddress (f : Page k .small) (i : Fin 1024) : Address k :=
  ⟨UInt32.ofNat (f.number * 4096 + 4 * i.val)⟩

/-- The offset of `n` bytes, if that still lies inside the page. -/
def Offset.ofBytes? (n : Nat) : Option (Offset s) := if h : n < s.bytes then some ⟨n, h⟩ else none

end Paging
