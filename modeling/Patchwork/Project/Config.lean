import Patchwork.Chain.Basic
import Patchwork.Fetch.Source
import Patchwork.Patch.Between
import Patchwork.Text.CharClass

/-!
# Configurations

A project is described by one file. All paths in it are relative to the directory that holds the
file, and no two stages, outputs or places for patches may be in each other's way.
-/
namespace Patchwork

/-- Where the source comes from. Without a repository it must be given as a directory. -/
structure SourceConfig where
  name : String
  repository : Option String
  revision : String
  retry : Fetch.Policy
  deriving DecidableEq, Repr

structure SetConfig where
  name : String
  source : TreePath
  output : TreePath
  patches : TreePath
  excludes : List TreePath
  deriving DecidableEq, Repr

structure FileConfig where
  path : TreePath
  output : TreePath
  patch : TreePath
  deriving DecidableEq, Repr

structure StageConfig where
  name : String
  sets : List SetConfig
  files : List FileConfig
  deriving DecidableEq, Repr

structure Config where
  source : SourceConfig
  stages : List StageConfig
  /-- The unchanged lines kept around each change in regenerated patches. -/
  context : Nat
  deriving DecidableEq, Repr

namespace StageConfig

def outputs (s : StageConfig) : List TreePath := s.sets.map (·.output) ++ s.files.map (·.output)

def patches (s : StageConfig) : List TreePath := s.sets.map (·.patches) ++ s.files.map (·.patch)

def stage (s : StageConfig) (root : DiskPath) : Stage where
  name := s.name
  sets := s.sets.map fun c => ⟨c.name, c.source, c.output, c.excludes, root.below c.patches⟩
  files := s.files.map fun c => ⟨c.path, c.output, root.below c.patch⟩

end StageConfig

namespace Config

def chain (c : Config) (root : DiskPath) : Chain := ⟨root, c.stages.map (·.stage root), c.context⟩

def outputs (c : Config) : List TreePath := c.stages.flatMap (·.outputs)

def patches (c : Config) : List TreePath := c.stages.flatMap (·.patches)

/-! ## Validity -/

inductive Fault
  | noName
  | invalidRevision (revision : String)
  | noAttempts
  | noContext
  | noStages
  | duplicateStage (name : String)
  | duplicateSet (stage name : String)
  | outputsOverlap (output other : TreePath)
  | patchesInOutput (patches output : TreePath)
  | patchesOverlap (patches other : TreePath)
  deriving DecidableEq, Repr

def Fault.message (e : Fault) : String :=
  "invalid configuration: " ++ match e with
    | .noName => "upstream name must not be empty"
    | .invalidRevision revision => "invalid revision " ++ Text.quoted revision
    | .noAttempts => "retry.attempts must be at least 1"
    | .noContext => "context_lines must be at least 1"
    | .noStages => "at least one stage is required"
    | .duplicateStage name => "duplicate stage name " ++ Text.quoted name
    | .duplicateSet stage name =>
      "stage " ++ Text.quoted stage ++ ": duplicate patch set name " ++ Text.quoted name
    | .outputsOverlap output other =>
      "output paths " ++ output.display ++ " and " ++ other.display ++ " overlap"
    | .patchesInOutput patches output =>
      "patches at " ++ patches.display ++ " overlap output path " ++ output.display
    | .patchesOverlap patches other =>
      "patch locations " ++ patches.display ++ " and " ++ other.display ++ " overlap"

/-- The first entry of a list that stands in it before. -/
def repeated? (seen : List String) : List String → Option String
  | [] => none
  | s :: rest => if s ∈ seen then some s else repeated? (s :: seen) rest

def namesFault? (seen : List String) : List StageConfig → Option Fault
  | [] => none
  | s :: stages =>
    if s.name ∈ seen then some (.duplicateStage s.name)
    else
      match repeated? [] (s.sets.map (·.name)) with
      | some name => some (.duplicateSet s.name name)
      | none => namesFault? (s.name :: seen) stages

/-- An output that overlaps a later one, or a place for patches. -/
def outputsFault? (patches : List TreePath) : List TreePath → Option Fault
  | [] => none
  | output :: outputs =>
    match outputs.find? output.overlaps, patches.find? output.overlaps with
    | some other, _ => some (.outputsOverlap output other)
    | none, some p => some (.patchesInOutput p output)
    | none, none => outputsFault? patches outputs

/-- A place for patches that overlaps a later one. -/
def patchesFault? : List TreePath → Option Fault
  | [] => none
  | p :: patches =>
    match patches.find? p.overlaps with
    | some other => some (.patchesOverlap p other)
    | none => patchesFault? patches

def settingsFault? (c : Config) : Option Fault :=
  if c.source.name.toList.all Text.isBlank then some .noName
  else if !Fetch.isRevision c.source.revision then some (.invalidRevision c.source.revision)
  else if c.source.retry.attempts = 0 then some .noAttempts
  else if c.context = 0 then some .noContext
  else if c.stages.isEmpty then some .noStages
  else none

def fault? (c : Config) : Option Fault :=
  c.settingsFault?.or <| (namesFault? [] c.stages).or <|
    (outputsFault? c.patches c.outputs).or (patchesFault? c.patches)

/-- A configuration that a project can work with. -/
def IsValid (c : Config) : Prop := c.fault? = none

end Config

end Patchwork
