import Patchwork.Chain.Rebase
import Patchwork.Chain.Regenerate
import Patchwork.Chain.Write
import Patchwork.Command.Invocation
import Patchwork.Project.ConfigFile

/-!
# Running a command

Each command reads the configuration, fetches what it needs and computes all of its results before
it writes the first of them.
-/
namespace Patchwork

inductive RunError
  | load (path : DiskPath) (error : Config.LoadError)
  | noRepository (source : String)
  | fetch (source revision : String) (error : FetchError)
  | stage (error : StageError)
  | writeOutputs (error : StoreError)
  | writePatches (error : StoreError)
  | writeRebased (error : StoreError)
  | update (path : DiskPath) (error : StoreError)

namespace RunError

/-- What failed, without the cause. -/
def message : RunError → String
  | .load path _ => "failed to load " ++ path.text
  | .noRepository source =>
    "upstream " ++ source ++ " has no repository configured; pass the upstream directory instead"
  | .fetch source revision _ => "failed to fetch " ++ source ++ " at " ++ revision
  | .stage e => e.message
  | .writeOutputs _ => "failed to write output directories"
  | .writePatches _ => "failed to write patches"
  | .writeRebased _ => "failed to write rebased patches"
  | .update path _ => "failed to update " ++ path.text

/-- Why it failed, where the message does not say so itself. -/
def causeMessage? : RunError → Option String
  | .load _ e => some e.message
  | .noRepository _ => none
  | .fetch _ _ e => some e.message
  | .stage _ => none
  | .writeOutputs e => some e.message
  | .writePatches e => some e.message
  | .writeRebased e => some e.message
  | .update _ e => some ("failed to write configuration: " ++ e.message)

end RunError

abbrev Run := ExceptT RunError (StateM Disk)

namespace Run

def store {α : Type} (name : StoreError → RunError) (step : Store α) : Run α := fun d =>
  let (result, d) := step d
  (result.mapError name, d)

def inspect {ε α : Type} (name : ε → RunError) (look : Disk → Except ε α) : Run α := fun d =>
  ((look d).mapError name, d)

/-- The directory of a configuration file, below which its paths lie. -/
def projectRoot (config : DiskPath) : DiskPath := config.directory

/-- A repository that is no address is a path below the root, if one is there. -/
def repositoryPlace (repository : String) (root : DiskPath) (d : Disk) : String :=
  let path := root.join ⟨repository⟩
  let isAddress := Text.occursIn [':', '/', '/'] repository.toList || repository.toList.contains '@'
  if !isAddress && d.holds path then path.text else repository

/-- Where the source comes from: a directory if one is given, and else its repository. -/
def sourceOf (remote : String → Fetch.Source) (c : Config) (root : DiskPath)
    (directory : Option DiskPath) (d : Disk) : Except RunError Fetch.Source :=
  match directory, c.source.repository with
  | some path, _ => .ok (Fetch.Source.directory d path)
  | none, some repository => .ok (remote (repositoryPlace repository root d))
  | none, none => .error (.noRepository c.source.name)

def fetch (remote : String → Fetch.Source) (c : Config) (root : DiskPath)
    (directory : Option DiskPath) (revision : String) (d : Disk) : Except RunError Snapshot := do
  let source ← sourceOf remote c root directory d
  let report := source.fetch revision c.source.retry.attempts false
  report.outcome.mapError (.fetch c.source.name revision)

/-- Applies the chain, without writing anything. -/
def outputs (remote : String → Fetch.Source) (c : Config) (root : DiskPath)
    (directory : Option DiskPath) (d : Disk) : Except RunError (List StageOutput) := do
  let source ← fetch remote c root directory c.source.revision d
  ((c.chain root).apply d source).mapError .stage

def regenerated (remote : String → Fetch.Source) (c : Config) (root : DiskPath)
    (directory : Option DiskPath) (d : Disk) : Except RunError (List StagePatches) := do
  let source ← fetch remote c root directory c.source.revision d
  ((c.chain root).regenerate d source root).mapError .stage

/-- The patches for another revision, and that revision as the source calls it. -/
def rebased (remote : String → Fetch.Source) (c : Config) (root : DiskPath) (revision : String)
    (directories : Option (DiskPath × DiskPath)) (d : Disk) :
    Except RunError (List StagePatches × String) := do
  let old ← fetch remote c root (directories.map (·.1)) c.source.revision d
  let new ← fetch remote c root (directories.map (·.2)) revision d
  let patches ← ((c.chain root).rebase d old new).mapError .stage
  return (patches, new.revision)

end Run

namespace Invocation

/-- Carries out a call. Repositories are reached through `remote`. -/
def run (remote : String → Fetch.Source) (i : Invocation) : Run Unit := do
  let root := Run.projectRoot i.config
  let c ← Run.inspect (.load i.config) (Config.load i.config)
  match i.command with
  | .apply directory =>
    let outputs ← Run.inspect id (Run.outputs remote c root directory)
    Run.store .writeOutputs ((c.chain root).writeOutputs outputs)
  | .regenerate directory =>
    let patches ← Run.inspect id (Run.regenerated remote c root directory)
    Run.store .writePatches (Chain.writePatches patches)
  | .rebase revision directories =>
    let (patches, found) ← Run.inspect id (Run.rebased remote c root revision directories)
    Run.store .writeRebased (Chain.writePatches patches)
    let c := { c with source := { c.source with revision := found } }
    Run.store (.update i.config) (c.save i.config)
  | .check directory =>
    discard (Run.inspect id (Run.outputs remote c root directory))

end Invocation

end Patchwork
