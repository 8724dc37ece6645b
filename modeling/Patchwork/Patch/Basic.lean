import Patchwork.Hunk.Basic
import Patchwork.TreePath

/-!
# Patches of one file

A `Patch` tells what happens to one file, hunk by hunk. A `StoredPatch` is its text, kept under the
path of the file it is meant for.
-/
namespace Patchwork

inductive PatchKind
  | modify
  | create
  | delete
  deriving DecidableEq, Repr

structure Patch where
  path : TreePath
  kind : PatchKind
  hunks : List Hunk
  deriving DecidableEq, Repr

/-- The text of a patch, under the path it is meant for. -/
structure StoredPatch where
  target : TreePath
  body : String
  deriving DecidableEq, Repr

/-- Patches in the order of their application. -/
abbrev Stack := List StoredPatch

end Patchwork
