import Patchwork.Diff.Grouping
import Patchwork.Patch.Basic

/-!
# The patch between two versions of a file

The hunks between the versions are handed on as they are found. They could as well be printed and
read again: this changes nothing (`Patch.betweenReread_eq`), so there is no error to report.
-/
namespace Patchwork.Patch

/-- The lines kept around a change when nothing else is asked for. -/
def defaultContext : Nat := 3

/-- The patch that leads from the old version of a file to the new one, where `none` is its absence.
Equal versions need no patch, and an empty file is created or deleted without hunks. -/
def between (path : TreePath) (old new : Option String) (context : Nat) : Option Patch :=
  if old = new then none
  else
    let kind := match old, new with
      | none, _ => PatchKind.create
      | _, none => PatchKind.delete
      | _, _ => PatchKind.modify
    some ⟨path, kind, Diff.hunks context (old.getD "") (new.getD "")⟩

end Patchwork.Patch
