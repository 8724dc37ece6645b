import Patchwork.Chain.Basic
import Patchwork.Store.PatchDirectory
import Patchwork.Store.Tree

/-!
# Writing what a chain makes

Output directories are replaced as a whole, less what is excluded there.
-/
namespace Patchwork

namespace SetOutput

/-- The files to write: those of the output, and the excluded ones that are there already. -/
def withKept (o : SetOutput) (dest : DiskPath) (d : Disk) : Except StoreError Tree :=
  if !o.excludes.isEmpty && d.holdsDirectory dest then do
    let present ← Store.loadTree dest [] d
    return o.tree.union (present.filter fun path _ => path.isExcluded o.excludes)
  else .ok o.tree

def write (root : DiskPath) (o : SetOutput) : Store Unit := do
  let dest := root.below o.output
  Store.writeTree (← Store.inspect (o.withKept dest)) dest

end SetOutput

def FileOutput.write (root : DiskPath) (o : FileOutput) : Store Unit :=
  match o.content with
  | some content => Store.putFile (root.below o.output) content
  | none => Store.dropFile (root.below o.output)

def StageOutput.write (root : DiskPath) (o : StageOutput) : Store Unit := do
  Store.each (·.write root) o.sets
  Store.each (·.write root) o.files

def SetPatches.write (p : SetPatches) : Store Unit := PatchDirectory.write ⟨p.directory⟩ p.patches

/-- A file that needs no patch loses the one it had. -/
def FilePatch.write (p : FilePatch) : Store Unit :=
  match p.body with
  | some body => Store.putFile p.file (.ofText body)
  | none => Store.dropFile p.file

def StagePatches.write (p : StagePatches) : Store Unit := do
  Store.each (·.write) p.sets
  Store.each (·.write) p.files

namespace Chain

def writeOutputs (c : Chain) (outputs : List StageOutput) : Store Unit :=
  Store.each (·.write c.root) outputs

def writePatches (patches : List StagePatches) : Store Unit := Store.each (·.write) patches

end Chain

end Patchwork
