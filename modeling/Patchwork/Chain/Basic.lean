import Patchwork.Disk.Path
import Patchwork.Patch.Basic
import Patchwork.Tree.Region

/-!
# Chains of stages

A chain leads from a source to a fork of it. Each stage patches the tree that the stage before it
leaves behind, and its outputs are laid over that tree. A stage is made of units: sets of patches
for whole directories, and patches for single files.
-/
namespace Patchwork

/-- A directory of the input whose files are patched into an output directory. -/
structure SetUnit where
  name : String
  source : TreePath
  output : TreePath
  /-- Relative to both directories. -/
  excludes : List TreePath
  patches : DiskPath
  deriving DecidableEq, Repr

/-- A file of the input that is patched, or copied if it has no patch, into an output file. -/
structure FileUnit where
  path : TreePath
  output : TreePath
  patch : DiskPath
  deriving DecidableEq, Repr

structure Stage where
  name : String
  sets : List SetUnit
  files : List FileUnit
  deriving DecidableEq, Repr

/-- The stages from the source to the fork, which write their outputs below the root. -/
structure Chain where
  root : DiskPath
  stages : List Stage
  /-- The lines kept around each change. -/
  context : Nat
  deriving DecidableEq, Repr

structure SetOutput where
  name : String
  output : TreePath
  excludes : List TreePath
  tree : Tree

/-- What a file patch makes; nothing if it deletes the file. -/
structure FileOutput where
  output : TreePath
  content : Option Content

structure StageOutput where
  stage : String
  sets : List SetOutput
  files : List FileOutput

/-- The patches of a set, and the directory to keep them in. -/
structure SetPatches where
  name : String
  directory : DiskPath
  patches : Stack
  deriving DecidableEq, Repr

/-- The patch of a file, if it changes, and the file to keep it in. -/
structure FilePatch where
  file : DiskPath
  body : Option String
  deriving DecidableEq, Repr

structure StagePatches where
  stage : String
  sets : List SetPatches
  files : List FilePatch
  deriving DecidableEq, Repr

namespace SetOutput

/-- Lays the output over a tree. Excluded files stay as they are. -/
def overlay (o : SetOutput) (t : Tree) : Tree :=
  (t.clearRegion o.output o.excludes).graft o.output o.tree

end SetOutput

namespace FileOutput

def overlay (o : FileOutput) (t : Tree) : Tree :=
  match o.content with
  | some content => t.insert o.output content
  | none => t.erase o.output

end FileOutput

namespace StageOutput

/-- The tree that the next stage works on. -/
def overlay (o : StageOutput) (t : Tree) : Tree :=
  o.files.foldl (fun t file => file.overlay t) (o.sets.foldl (fun t set => set.overlay t) t)

def fileCount (o : StageOutput) : Nat :=
  o.sets.foldr (fun set n => set.tree.size + n)
    (o.files.filter fun file => file.content.isSome).length

end StageOutput

namespace SetUnit

def base (u : SetUnit) (input : Tree) : Tree := input.subtree u.source u.excludes

def outputOf (u : SetUnit) (tree : Tree) : SetOutput := ⟨u.name, u.output, u.excludes, tree⟩

def patchesOf (u : SetUnit) (patches : Stack) : SetPatches := ⟨u.name, u.patches, patches⟩

end SetUnit

namespace FileUnit

def base (u : FileUnit) (input : Tree) : Tree := Tree.single u.path (input.get? u.path)

def outputOf (u : FileUnit) (tree : Tree) : FileOutput := ⟨u.output, tree.get? u.path⟩

def patchOf (u : FileUnit) (patches : Stack) : FilePatch := ⟨u.patch, patches.head?.map (·.body)⟩

end FileUnit

end Patchwork
