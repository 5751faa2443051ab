import Paging.Fault
import Paging.Refusal

/-! # How a step of a session can fail -/

namespace Paging

/-- What a step refers to and the session does not have. -/
inductive Missing where
  | addressSpace
  | rootRecord
  | builtDirectory
  | lentFrame
  deriving DecidableEq

inductive StepError where
  | fault (f : Fault)
  | map (e : MapRefusal)
  | boot (e : BootRefusal)
  | missing (what : Missing)
  deriving DecidableEq

end Paging
