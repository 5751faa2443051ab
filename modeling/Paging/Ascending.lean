/-!
# Ascending lists

`ascending` lists the distinct members of a list from the least to the greatest, as a sorted set of
addresses, pages or indices shows them.
-/

namespace Paging

variable {α : Type} [LE α] [DecidableLE α] [DecidableEq α]

/-- The distinct members of `xs`, least first. -/
def ascending (xs : List α) : List α := xs.eraseDups.mergeSort

end Paging
