import Paging.Log
import Paging.Machine.Cpu

/-!
# Installing a directory

A directory is first built, then installed. A `RootRecord` remembers which directory is active; it
changes in the same step that hands the directory to the processor. `install` asks for
4 MiB pages before it touches a register, and refuses without having changed anything.
-/

namespace Paging

/-- A directory that is complete but not yet installed. -/
structure BuiltDirectory where
  root : Frame
  deriving DecidableEq

/-- The directory that the processor walks. -/
structure ActiveDirectory where
  root : Frame
  deriving DecidableEq

/-- The record of the active directory. -/
structure RootRecord where
  current : Option ActiveDirectory := none
  deriving DecidableEq

def BuiltDirectory.describe (d : BuiltDirectory) : String :=
  "BuiltDirectory \x7b root: " ++ d.root.describe ++ " \x7d"

def ActiveDirectory.describe (d : ActiveDirectory) : String :=
  "ActiveDirectory \x7b root: " ++ d.root.describe ++ " \x7d"

namespace RootRecord

/-- The active directory, if there is one. -/
def describe (r : RootRecord) : String :=
  match r.current with
  | some d => "Some(" ++ d.describe ++ ")"
  | none => "None"

/-- Installs `next` and returns the directory that was active before, along with the new record. -/
def install {m : Type → Type} [Monad m] [MonadProcessor m] [MonadLog m] (r : RootRecord)
    (next : BuiltDirectory) : m (Except InstallRefusal (Option ActiveDirectory) × RootRecord) := do
  if ← MonadProcessor.hasLargePages then
    MonadProcessor.call .largePagesOn
    MonadProcessor.call (.setRoot next.root)
    MonadProcessor.call .pagingOn
    emit (.installed next.root)
    pure (.ok r.current, ⟨some ⟨next.root⟩⟩)
  else
    emit (.installRefused next.root)
    pure (.error .noLargePages, r)

end RootRecord

end Paging
