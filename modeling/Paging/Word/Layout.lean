import Paging.Word.Field

/-!
# Layouts: words made of named fields

A `Layout` names the fields of a 32-bit word, in bit order. Bits that no member covers are padding:
they are never shown, and every edit keeps them, because edits go through `Field.put`.
-/

namespace Paging

/-- A named field. Members that hold an address are not `settable` by name: they change only through
the edit that takes the whole address. -/
structure Member where
  name : String
  field : Field
  settable : Bool := true
  deriving DecidableEq

/-- What a member shows: one bit is a truth value, a wider field a number. -/
inductive FieldValue where
  | flag (b : Bool)
  | number (n : Nat)
  deriving DecidableEq

def FieldValue.text : FieldValue → String
  | flag b => if b then "true" else "false"
  | number n => n.repr

namespace Member

def isFlag (m : Member) : Bool := m.field.width == 1

def value (m : Member) (w : UInt32) : FieldValue :=
  if m.isFlag then .flag (m.field.test w) else .number (m.field.get w)

/-- The largest value that fits. -/
def max (m : Member) : Nat := m.field.size - 1

end Member

/-- Name, members in bit order, and the word that a fresh value starts from. -/
structure Layout where
  name : String
  members : List Member
  blank : UInt32 := 0

namespace Layout

/-- The members that may be set by name. -/
def settable (l : Layout) : List Member := l.members.filter (·.settable)

def member? (l : Layout) (name : String) : Option Member := l.settable.find? (·.name == name)

/-- The word with the name and value of every member. -/
def describe (l : Layout) (w : UInt32) : String :=
  let shown := l.members.map fun m => m.name ++ ": " ++ (m.value w).text
  l.name ++ " \x7b " ++ ", ".intercalate shown ++ " \x7d"

end Layout

end Paging
