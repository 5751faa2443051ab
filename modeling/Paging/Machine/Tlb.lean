import Paging.Address.Basic

/-!
# Cached translations

The processor remembers translations that it has walked: of single 4 KiB pages and of whole 4 MiB
pages. They stay until they are dropped, whatever happens to the tables in the meantime.
-/

namespace Paging

structure Tlb where
  small : List (Page .virtual .small × Frame) := []
  large : List (Page .virtual .large × Page .physical .large) := []
  deriving DecidableEq

namespace Tlb

def empty : Tlb := {}

/-- The frame that is cached for page `p`. -/
def frame? (t : Tlb) (p : Page .virtual .small) : Option Frame :=
  match t.small.lookup p with
  | some f => some f
  | none => (t.large.lookup p.region).map fun q => q.part p.place

/-- Caches the translation of a 4 KiB page in place of an older one. -/
def insertSmall (t : Tlb) (p : Page .virtual .small) (f : Frame) : Tlb :=
  { t with small := (p, f) :: t.small.filter (·.1 ≠ p) }

/-- Caches the translation of a 4 MiB page in place of an older one. -/
def insertLarge (t : Tlb) (p : Page .virtual .large) (q : Page .physical .large) : Tlb :=
  { t with large := (p, q) :: t.large.filter (·.1 ≠ p) }

/-- Drops what is cached for the addresses of page `p`. -/
def drop (t : Tlb) (p : Page .virtual .small) : Tlb :=
  ⟨t.small.filter (·.1 ≠ p), t.large.filter (·.1 ≠ p.region)⟩

end Tlb

end Paging
