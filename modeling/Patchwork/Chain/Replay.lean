import Patchwork.Chain.Apply

/-!
# Replaying a chain with given patches

A chain that is replayed takes its patches from a list, one for each unit of a stage, and not from
the disk.
-/
namespace Patchwork

namespace FileUnit

/-- The stack that a file patch stands for; an empty text holds no patch. -/
def stackOf (u : FileUnit) (p : FilePatch) : Except UnitError Stack :=
  match p.body with
  | none => .ok []
  | some body => u.patchIn (.ofText body)

def replay (u : FileUnit) (input : Tree) (p : FilePatch) : Except UnitError FileOutput := do
  u.derive input (← u.stackOf p)

end FileUnit

namespace Stage

/-- Runs every unit with its patches, which stand in the order of the units. -/
def replay (s : Stage) (p : StagePatches) (input : Tree) : Except StageError StageOutput :=
  let sets := partitionResults
    ((s.sets.zip p.sets).map fun e => (e.1.name, e.1.derive input e.2.patches))
  let files := partitionResults
    ((s.files.zip p.files).map fun e => (e.1.output.display, e.1.replay input e.2))
  let failures := sets.2 ++ files.2
  if failures.isEmpty then .ok ⟨s.name, sets.1, files.1⟩ else .error ⟨s.name, failures⟩

end Stage

namespace Chain

def replayStages : List (Stage × StagePatches) → Tree → Except StageError (List StageOutput)
  | [], _ => .ok []
  | (s, p) :: stages, input => do
    let output ← s.replay p input
    return output :: (← replayStages stages (output.overlay input))

def replay (c : Chain) (patches : List StagePatches) (source : Snapshot) :
    Except StageError (List StageOutput) :=
  replayStages (c.stages.zip patches) source.tree

end Chain

end Patchwork
