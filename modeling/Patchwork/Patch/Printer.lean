import Patchwork.Patch.Basic
import Patchwork.Patch.FileName

/-!
# Writing patches
-/
namespace Patchwork.Patch

def oldName (p : Patch) : String :=
  if p.kind = .create then absentName else String.ofList (headerName .old p.path)

def newName (p : Patch) : String :=
  if p.kind = .delete then absentName else String.ofList (headerName .new p.path)

def render (p : Patch) : String :=
  "--- " ++ p.oldName ++ "\n+++ " ++ p.newName ++ "\n" ++ Text.join (p.hunks.map Hunk.render)

def toStored (p : Patch) : StoredPatch := ⟨p.path, p.render⟩

end Patchwork.Patch
