/-!
# Upper-case hexadecimal text

`hex` writes a number in its fewest digits, `hexPadded` fills up with zeros on the left, and
`hexWord` is the form that every address takes in messages: `0x` and eight digits.
-/

namespace Paging

/-- Upper-case hexadecimal digits of `n`, most significant first; `0` for zero. -/
def hexDigits (n : Nat) : List Char := (Nat.toDigits 16 n).map Char.toUpper

/-- `0x` and the fewest digits. -/
def hex (n : Nat) : String := "0x" ++ String.ofList (hexDigits n)

/-- `0x` and at least `width` digits. -/
def hexPadded (width n : Nat) : String :=
  let ds := hexDigits n
  "0x" ++ String.ofList (List.replicate (width - ds.length) '0' ++ ds)

/-- `0x` and the eight digits of a 32-bit word. -/
def hexWord (w : UInt32) : String := hexPadded 8 w.toNat

end Paging
