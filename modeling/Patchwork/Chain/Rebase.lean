import Patchwork.Chain.Apply

/-!
# Carrying a chain to another source

Each stage carries its patches from what the stages before it make of the old source to what they
make of the new one. Nothing is written.
-/
namespace Patchwork

/-- What a unit makes of the old input and of the new one, and the patches for the new one. -/
structure Carried (ω π : Type) where
  old : ω
  new : ω
  patches : π

/-- Carries patches from one base to another, with what they make of both. -/
def Stack.carry (patches : Stack) (old new : Tree) (context : Nat) :
    Except UnitError (Carried Tree Stack) := do
  let oldTree ← (patches.replay old).mapError .apply
  let rebased ← (patches.rebase old new context).mapError .rebase
  let newTree ← (rebased.replay new).mapError .apply
  return ⟨oldTree, newTree, rebased⟩

namespace SetUnit

def rebase (u : SetUnit) (d : Disk) (old new : Tree) (context : Nat) :
    Except UnitError (Carried SetOutput SetPatches) := do
  let c ← (← u.stored d).carry (u.base old) (u.base new) context
  return ⟨u.outputOf c.old, u.outputOf c.new, u.patchesOf c.patches⟩

end SetUnit

namespace FileUnit

def rebase (u : FileUnit) (d : Disk) (old new : Tree) (context : Nat) :
    Except UnitError (Carried FileOutput FilePatch) := do
  let c ← (← u.stored d).carry (u.base old) (u.base new) context
  return ⟨u.outputOf c.old, u.outputOf c.new, u.patchOf c.patches⟩

end FileUnit

namespace Stage

def rebase (s : Stage) (d : Disk) (old new : Tree) (context : Nat) :
    Except StageError (Carried StageOutput StagePatches) := do
  let (sets, files) ← s.run (·.rebase d old new context) (·.rebase d old new context)
  return ⟨⟨s.name, sets.map (·.old), files.map (·.old)⟩,
    ⟨s.name, sets.map (·.new), files.map (·.new)⟩,
    ⟨s.name, sets.map (·.patches), files.map (·.patches)⟩⟩

end Stage

namespace Chain

def rebaseStages (d : Disk) (context : Nat) :
    List Stage → (old new : Tree) → Except StageError (List StagePatches)
  | [], _, _ => .ok []
  | s :: stages, old, new => do
    let c ← s.rebase d old new context
    return c.patches ::
      (← rebaseStages d context stages (c.old.overlay old) (c.new.overlay new))

def rebase (c : Chain) (d : Disk) (old new : Snapshot) : Except StageError (List StagePatches) :=
  rebaseStages d c.context c.stages old.tree new.tree

end Chain

end Patchwork
