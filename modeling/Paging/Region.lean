import Paging.Table.Entry

/-!
# Regions

A region is the 4 MiB that one directory slot covers. `Region.ofSlot` says what a slot makes of it,
`bootPlan` what it is to be at boot.
-/

namespace Paging

/-- What a region currently is. -/
inductive Region where
  /-- Mapped page by page through a table. -/
  | tableBacked
  /-- Mapped as one 4 MiB page. -/
  | identityLarge
  /-- The window onto the tables. -/
  | selfMap
  | unmapped
  deriving DecidableEq

namespace Region

/-- The region of slot `i`, which holds `e`. -/
def ofSlot (i : SlotIndex) (e : DirEntry) : Region :=
  if i = selfMapSlot then selfMap
  else
    match e.content? with
    | none => unmapped
    | some (.large ..) => identityLarge
    | some (.table ..) => tableBacked

def name : Region → String
  | tableBacked => "TableBacked"
  | identityLarge => "IdentityLarge"
  | selfMap => "SelfMap"
  | unmapped => "Unmapped"

end Region

/-- What boot makes of a slot. -/
inductive BootPlan where
  /-- Every 4 KiB page is mapped to the frame of the same number. -/
  | identitySmall
  /-- One 4 MiB page is mapped to the same place. -/
  | identityLarge
  | selfMap
  deriving DecidableEq

def BootPlan.name : BootPlan → String
  | identitySmall => "IdentitySmall"
  | identityLarge => "IdentityLarge"
  | selfMap => "SelfMap"

/-- The plan for slot `i`: small pages for the first, the self-map for the last, 4 MiB pages for all
others. -/
def bootPlan (i : SlotIndex) : BootPlan :=
  if i.val = 0 then .identitySmall else if i = selfMapSlot then .selfMap else .identityLarge

end Paging
