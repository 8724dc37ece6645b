import Patchwork.Json.Document
import Patchwork.Json.Reader
import Patchwork.Project.Config

/-!
# Configuration files

A configuration is kept as a document of nested records. Fields that a configuration can do without
get their usual values, and some of them are not written when they say nothing.
-/
namespace Patchwork

namespace Config

/-! ## Reading -/

def required {α : Type} (name : String) : Option α → Except String α
  | some a => .ok a
  | none => .error name

def readPath : Json.Reader TreePath :=
  .parsed fun s => (TreePath.ofString s).mapError TreePath.Invalid.message

def maxAttempts : Nat := UInt32.size - 1

def maxNatural : Nat := UInt64.size - 1

structure RetryDraft where
  attempts : Option Nat := none
  backoff : Option Nat := none

def retryRecord : Json.Record RetryDraft Fetch.Policy where
  name := "RetryConfig"
  fields := [
    ⟨"attempts", fun d => return { d with attempts := ← .natural "u32" maxAttempts }⟩,
    ⟨"backoff_ms", fun d => return { d with backoff := ← .natural "u64" maxNatural }⟩]
  start := {}
  finish d := return ⟨← required "attempts" d.attempts, ← required "backoff_ms" d.backoff⟩

structure SourceDraft where
  name : Option String := none
  repository : Option (Option String) := none
  revision : Option String := none
  retry : Option Fetch.Policy := none

def sourceRecord : Json.Record SourceDraft SourceConfig where
  name := "UpstreamConfig"
  fields := [
    ⟨"name", fun d => return { d with name := ← .text }⟩,
    ⟨"repository", fun d => return { d with repository := ← .optional .text }⟩,
    ⟨"revision", fun d => return { d with revision := ← .text }⟩,
    ⟨"retry", fun d => return { d with retry := ← retryRecord.read }⟩]
  start := {}
  finish d := return ⟨← required "name" d.name, d.repository.getD none,
    ← required "revision" d.revision, d.retry.getD .default⟩

structure SetDraft where
  name : Option String := none
  source : Option TreePath := none
  output : Option TreePath := none
  patches : Option TreePath := none
  excludes : Option (List TreePath) := none

def setRecord : Json.Record SetDraft SetConfig where
  name := "PatchSetConfig"
  fields := [
    ⟨"name", fun d => return { d with name := ← .text }⟩,
    ⟨"upstream_path", fun d => return { d with source := ← readPath }⟩,
    ⟨"output_path", fun d => return { d with output := ← readPath }⟩,
    ⟨"patches_dir", fun d => return { d with patches := ← readPath }⟩,
    ⟨"excludes", fun d => return { d with excludes := ← .list readPath }⟩]
  start := {}
  finish d := return ⟨← required "name" d.name, ← required "upstream_path" d.source,
    ← required "output_path" d.output, ← required "patches_dir" d.patches, d.excludes.getD []⟩

structure FileDraft where
  path : Option TreePath := none
  output : Option TreePath := none
  patch : Option TreePath := none

def fileRecord : Json.Record FileDraft FileConfig where
  name := "FilePatchConfig"
  fields := [
    ⟨"path", fun d => return { d with path := ← readPath }⟩,
    ⟨"output_file", fun d => return { d with output := ← readPath }⟩,
    ⟨"patch_file", fun d => return { d with patch := ← readPath }⟩]
  start := {}
  finish d := return ⟨← required "path" d.path, ← required "output_file" d.output,
    ← required "patch_file" d.patch⟩

structure StageDraft where
  name : Option String := none
  sets : Option (List SetConfig) := none
  files : Option (List FileConfig) := none

def stageRecord : Json.Record StageDraft StageConfig where
  name := "StageConfig"
  fields := [
    ⟨"name", fun d => return { d with name := ← .text }⟩,
    ⟨"patch_sets", fun d => return { d with sets := ← .list setRecord.read }⟩,
    ⟨"file_patches", fun d => return { d with files := ← .list fileRecord.read }⟩]
  start := {}
  finish d := return ⟨← required "name" d.name, d.sets.getD [], d.files.getD []⟩

structure Draft where
  source : Option SourceConfig := none
  stages : Option (List StageConfig) := none
  context : Option Nat := none

def record : Json.Record Draft Config where
  name := "Config"
  fields := [
    ⟨"upstream", fun d => return { d with source := ← sourceRecord.read }⟩,
    ⟨"stages", fun d => return { d with stages := ← .list stageRecord.read }⟩,
    ⟨"context_lines", fun d => return { d with context := ← .natural "usize" maxNatural }⟩]
  start := {}
  finish d := return ⟨← required "upstream" d.source, ← required "stages" d.stages,
    d.context.getD Patch.defaultContext⟩

/-- Reads a configuration, valid or not. -/
def ofText (s : String) : Except Json.ReadError Config := record.read.run s

/-! ## Writing -/

/-- A field that is written only if it holds something. -/
def unlessEmpty (name : String) (elements : List Json.Value) : List (String × Json.Value) :=
  if elements.isEmpty then [] else [(name, .list elements)]

def pathValue (p : TreePath) : Json.Value := .text p.text

def retryValue (p : Fetch.Policy) : Json.Value :=
  .record [("attempts", .natural p.attempts), ("backoff_ms", .natural p.backoff)]

def sourceValue (s : SourceConfig) : Json.Value :=
  .record <| [("name", .text s.name)] ++
    (s.repository.map fun r => ("repository", Json.Value.text r)).toList ++
    [("revision", .text s.revision), ("retry", retryValue s.retry)]

def setValue (s : SetConfig) : Json.Value :=
  .record <| [("name", .text s.name), ("upstream_path", pathValue s.source),
    ("output_path", pathValue s.output), ("patches_dir", pathValue s.patches)] ++
    unlessEmpty "excludes" (s.excludes.map pathValue)

def fileValue (f : FileConfig) : Json.Value :=
  .record [("path", pathValue f.path), ("output_file", pathValue f.output),
    ("patch_file", pathValue f.patch)]

def stageValue (s : StageConfig) : Json.Value :=
  .record <| [("name", .text s.name), ("patch_sets", .list (s.sets.map setValue))] ++
    unlessEmpty "file_patches" (s.files.map fileValue)

def value (c : Config) : Json.Value :=
  .record [("upstream", sourceValue c.source), ("stages", .list (c.stages.map stageValue)),
    ("context_lines", .natural c.context)]

def toText (c : Config) : String := c.value.document

/-! ## Files -/

inductive LoadError
  | read (path : DiskPath) (fault : DiskFault)
  | parse (path : DiskPath) (error : Json.ReadError)
  | invalid (fault : Fault)

def LoadError.message : LoadError → String
  | .read path fault => "failed to read " ++ path.text ++ ": " ++ fault.message
  | .parse path e => "failed to parse " ++ path.text ++ ": " ++ e.message
  | .invalid fault => fault.message

def load (path : DiskPath) (d : Disk) : Except LoadError Config := do
  let text ← (d.text path).mapError (.read path)
  let c ← (ofText text).mapError (.parse path)
  match c.fault? with
  | some fault => .error (.invalid fault)
  | none => return c

def save (c : Config) (path : DiskPath) : Store Unit := Store.putFile path (.ofText c.toText)

end Config

end Patchwork
