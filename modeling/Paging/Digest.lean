/-!
# Digests of long lists

A list of pairs is shown in full while it is short. A longer one is summed up by its length, its
ends, and a 32-bit hash of all pairs in order (FNV-1a over the bytes, least significant first).
-/

namespace Paging

inductive Digest where
  | full (pairs : List (UInt32 × UInt32))
  | summary (count : Nat) (first last : UInt32 × UInt32) (hash : UInt32)
  deriving DecidableEq

namespace Digest

/-- The longest list that is shown in full. -/
def fullLength : Nat := 16

/-- The hash of no bytes at all. -/
def hashStart : UInt32 := 0x811C9DC5

/-- The hash after one more byte. -/
def hashByte (h byte : UInt32) : UInt32 := (h ^^^ byte) * 0x01000193

/-- The hash after the four bytes of a word. -/
def hashWord (h w : UInt32) : UInt32 :=
  hashByte (hashByte (hashByte (hashByte h (w &&& 0xFF)) (w >>> 8 &&& 0xFF)) (w >>> 16 &&& 0xFF))
    (w >>> 24)

def hashPairs (pairs : List (UInt32 × UInt32)) : UInt32 :=
  pairs.foldl (fun h p => hashWord (hashWord h p.1) p.2) hashStart

def ofPairs (pairs : List (UInt32 × UInt32)) : Digest :=
  match pairs with
  | [] => full []
  | p :: ps =>
    if ps.length < fullLength then full (p :: ps)
    else summary (ps.length + 1) p ((p :: ps).getLast (List.cons_ne_nil p ps)) (hashPairs (p :: ps))

end Digest

end Paging
