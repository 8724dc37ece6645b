import Patchwork.Chain.Apply

/-!
# Regenerating the patches of a chain

The outputs are read back from the working directories, where they may have been edited, and every
unit gets the patches that lead to what is there now.
-/
namespace Patchwork

/-- The outputs as they are on disk, and the patches that lead to them. -/
structure Regenerated (ω π : Type) where
  output : ω
  patches : π

namespace SetUnit

/-- Patches keep the order of the stored ones. -/
def regenerate (u : SetUnit) (d : Disk) (input : Tree) (working : DiskPath) (context : Nat) :
    Except UnitError (Regenerated SetOutput SetPatches) := do
  let previous ← u.stored d
  let derived ← (Store.loadTree (working.below u.output) u.excludes d).mapError .store
  let patches ← (Stack.regenerate (u.base input) derived ⟨context, previous.targets⟩).mapError
    .regenerate
  return ⟨u.outputOf derived, u.patchesOf patches⟩

end SetUnit

namespace FileUnit

def regenerate (u : FileUnit) (d : Disk) (input : Tree) (working : DiskPath) (context : Nat) :
    Except UnitError (Regenerated FileOutput FilePatch) := do
  let content ← (Store.file? (working.below u.output) d).mapError .store
  let derived := Tree.single u.path content
  let patches ← (Stack.regenerate (u.base input) derived ⟨context, []⟩).mapError .regenerate
  return ⟨u.outputOf derived, u.patchOf patches⟩

end FileUnit

namespace Stage

def regenerate (s : Stage) (d : Disk) (input : Tree) (working : DiskPath) (context : Nat) :
    Except StageError (Regenerated StageOutput StagePatches) := do
  let (sets, files) ←
    s.run (·.regenerate d input working context) (·.regenerate d input working context)
  return ⟨⟨s.name, sets.map (·.output), files.map (·.output)⟩,
    ⟨s.name, sets.map (·.patches), files.map (·.patches)⟩⟩

end Stage

namespace Chain

def regenerateStages (d : Disk) (working : DiskPath) (context : Nat) :
    List Stage → Tree → Except StageError (List StagePatches)
  | [], _ => .ok []
  | s :: stages, input => do
    let r ← s.regenerate d input working context
    return r.patches :: (← regenerateStages d working context stages (r.output.overlay input))

def regenerate (c : Chain) (d : Disk) (source : Snapshot) (working : DiskPath) :
    Except StageError (List StagePatches) :=
  regenerateStages d working c.context c.stages source.tree

end Chain

end Patchwork
