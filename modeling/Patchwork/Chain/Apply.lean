import Patchwork.Chain.Basic
import Patchwork.Chain.Error
import Patchwork.Store.PatchDirectory
import Patchwork.Store.Tree

/-!
# Applying a chain

What a unit makes of its input depends on its patches alone, which are read from disk. Nothing is
written.
-/
namespace Patchwork

namespace SetUnit

def stored (u : SetUnit) (d : Disk) : Except UnitError Stack :=
  (PatchDirectory.read ⟨u.patches⟩ d).mapError .store

def derive (u : SetUnit) (input : Tree) (patches : Stack) : Except UnitError SetOutput :=
  ((patches.replay (u.base input)).mapError .apply).map u.outputOf

def apply (u : SetUnit) (d : Disk) (input : Tree) : Except UnitError SetOutput := do
  u.derive input (← u.stored d)

end SetUnit

namespace FileUnit

/-- The patch that a file holds; an empty file holds none. -/
def patchIn (u : FileUnit) (content : Content) : Except UnitError Stack :=
  if content.isEmpty then .ok []
  else
    match content.text? with
    | some body => .ok [⟨u.path, body⟩]
    | none => .error (.store (.io u.patch (.notText (Text.octetFault content))))

def stored (u : FileUnit) (d : Disk) : Except UnitError Stack := do
  match ← (Store.file? u.patch d).mapError .store with
  | none => .ok []
  | some content => u.patchIn content

/-- What given patches make of an input. A file without a patch must be there. -/
def derive (u : FileUnit) (input : Tree) (patches : Stack) : Except UnitError FileOutput :=
  if patches.isEmpty && (u.base input).isEmpty then .error (.apply ⟨u.path, .missingTarget⟩)
  else ((patches.replay (u.base input)).mapError .apply).map u.outputOf

def apply (u : FileUnit) (d : Disk) (input : Tree) : Except UnitError FileOutput := do
  u.derive input (← u.stored d)

end FileUnit

namespace Stage

/-- Runs every unit. If one fails, all failures are the result. -/
def run {α β : Type} (s : Stage) (onSet : SetUnit → Except UnitError α)
    (onFile : FileUnit → Except UnitError β) : Except StageError (List α × List β) :=
  let sets := partitionResults (s.sets.map fun u => (u.name, onSet u))
  let files := partitionResults (s.files.map fun u => (u.output.display, onFile u))
  let failures := sets.2 ++ files.2
  if failures.isEmpty then .ok (sets.1, files.1) else .error ⟨s.name, failures⟩

def apply (s : Stage) (d : Disk) (input : Tree) : Except StageError StageOutput := do
  let (sets, files) ← s.run (·.apply d input) (·.apply d input)
  return ⟨s.name, sets, files⟩

end Stage

namespace Chain

/-- Applies stages one after another, each to what those before it leave behind. -/
def applyStages (d : Disk) : List Stage → Tree → Except StageError (List StageOutput)
  | [], _ => .ok []
  | s :: stages, input => do
    let output ← s.apply d input
    return output :: (← applyStages d stages (output.overlay input))

def apply (c : Chain) (d : Disk) (source : Snapshot) : Except StageError (List StageOutput) :=
  applyStages d c.stages source.tree

end Chain

end Patchwork
