import Patchwork.Patch.Basic
import Patchwork.Store.Basic

/-!
# Patch directories

A patch directory holds one file per target, named after the target with `.patch` at the end. The
patches are applied in the order of their files' paths, unless a file named `series` lists them.
-/
namespace Patchwork

structure PatchDirectory where
  root : DiskPath
  deriving DecidableEq, Repr

namespace PatchDirectory

def suffix : String := ".patch"

def fileOf (target : TreePath) : TreePath := target.addSuffix suffix

def isPatchName (name : String) : Bool := name.endsWith suffix && name ≠ suffix

def seriesPath (p : PatchDirectory) : DiskPath := p.root.join ⟨"series"⟩

def hasSeries (p : PatchDirectory) (d : Disk) : Bool := d.holdsFile p.seriesPath

/-- The patch files at or below a location, under the names that lead there. -/
def patchNames (d : Disk) (dir : Location) : List Location :=
  (d.walk dir).filterMap fun e =>
    match e.2, (dir ++ e.1).getLast? with
    | .file _, some name => if isPatchName name.text then some e.1 else none
    | _, _ => none

def files (p : PatchDirectory) (d : Disk) : Except StoreError (List TreePath) := do
  let dir ← (d.locate p.root).mapError (.walk p.root)
  let files ← (patchNames d dir).mapM fun names =>
    (TreePath.ofString (Location.text names)).mapError .invalidPath
  return files.mergeSort fun a b => (compare a b).isLE

/-- The first word of a line of a series file. A `#` starts a comment. -/
def seriesEntry? (line : List Char) : Option String :=
  let word := ((line.takeWhile (· ≠ '#')).dropWhile Text.isBlank).takeWhile fun c => !Text.isBlank c
  if word.isEmpty then none else some (String.ofList word)

/-- The files that the lines of a series file name, counted from `line`. -/
def readEntries (p : PatchDirectory) (d : Disk) (line : Nat) :
    List (List Char) → Except StoreError (List TreePath)
  | [] => .ok []
  | cs :: rest =>
    match seriesEntry? cs with
    | none => p.readEntries d (line + 1) rest
    | some entry => do
      let file ← (TreePath.ofString entry).mapError .invalidPath
      if d.holdsFile (p.root.below file) then
        return file :: (← p.readEntries d (line + 1) rest)
      else .error (.missingSeriesEntry p.seriesPath line entry)

def readSeries (p : PatchDirectory) (d : Disk) : Except StoreError (Option (List TreePath)) := do
  match ← Store.file? p.seriesPath d with
  | none => return none
  | some content =>
    some <$> p.readEntries d 1 ((Text.readLossy content.toList).splitOn '\n')

def targetOf (file : TreePath) (path : DiskPath) : Except StoreError TreePath :=
  let cs := file.text.toList
  if suffix.toList.isSuffixOf cs then
    match TreePath.ofString (String.ofList (cs.take (cs.length - suffix.length))) with
    | .ok target => if target.isRoot then .error (.notAPatchFile path) else .ok target
    | .error _ => .error (.notAPatchFile path)
  else .error (.notAPatchFile path)

def readPatch (p : PatchDirectory) (d : Disk) (file : TreePath) :
    Except StoreError StoredPatch := do
  let path := p.root.below file
  let body ← (d.text path).mapError (.io path)
  return ⟨← targetOf file path, body⟩

def order (p : PatchDirectory) (d : Disk) : Except StoreError (List TreePath) := do
  let files ← p.files d
  match ← p.readSeries d with
  | none => return files
  | some entries =>
    match files.find? (· ∉ entries) with
    | some file => .error (.unlisted (p.root.below file))
    | none => return entries

/-- Reads the patches in the order of their application. A directory that is not there holds
none. -/
def read (p : PatchDirectory) (d : Disk) : Except StoreError Stack :=
  if d.holds p.root then do (← p.order d).mapM (p.readPatch d) else .ok []

/-- The first target that an earlier patch has too. -/
def duplicate? (seen : List TreePath) : Stack → Option TreePath
  | [] => none
  | patch :: s =>
    if patch.target ∈ seen then some patch.target else duplicate? (patch.target :: seen) s

/-- Writes a patch, if its file holds something else. -/
def writePatch (p : PatchDirectory) (patch : StoredPatch) : Store Unit := do
  let path := p.root.below (fileOf patch.target)
  let body := Content.ofText patch.body
  if (← Store.inspect (Store.file? path)) ≠ some body then Store.putFile path body

def seriesText (s : Stack) : String :=
  String.join (s.map fun patch => (fileOf patch.target).text ++ "\n")

/-- A step of a walk through the directories below a root. -/
inductive Visit
  | enter (names : Location)
  | leave (names : Location)
  deriving DecidableEq, Repr

/-- The visits to directories that come in the order of their names. Those in `opened`, the
innermost first, have been entered; a directory is left when the next does not lie in it. -/
def visits (opened : List Location) : List Location → List Visit
  | [] => opened.map .leave
  | names :: rest =>
    (opened.takeWhile fun dir => !names.isWithin dir).map .leave ++
      .enter names :: visits (names :: opened.dropWhile fun dir => !names.isWithin dir) rest

def directoryNames (d : Disk) (dir : Location) : List Location :=
  (d.walk dir).filterMap fun e => if e.1 ≠ [] ∧ e.2 = .directory then some e.1 else none

/-- A directory is entered by its path, so the root must still be reached. It is removed when it is
left, if nothing lies in it. -/
def pruneVisit (p : PatchDirectory) : Visit → Store Unit
  | .enter names => do
    let _ ← Store.inspect fun d => (d.locate p.root).mapError (.walk (p.root.belowNames names))
  | .leave names => Store.attempt fun d => do d.dropEmptyDirectory ((← d.locate p.root) ++ names)

/-- Removes the directories below the root in which nothing lies, the innermost first. Where one
that the path of the root goes through is among them, what is left cannot be reached. -/
def prune (p : PatchDirectory) : Store Unit := do
  let dir ← Store.inspect fun d => (d.locate p.root).mapError (.walk p.root)
  Store.each p.pruneVisit (visits [] (directoryNames (← get) dir))

/-- Makes the directory hold exactly the given patches. Files that need no change are left alone,
and a series file is brought up to date. -/
def write (p : PatchDirectory) (s : Stack) : Store Unit := do
  match duplicate? [] s with
  | some target => throw (.duplicateTarget target)
  | none => pure ()
  Store.makeDirectories p.root
  let files ← Store.inspect p.files
  let stale := files.filter (· ∉ s.map fun patch => fileOf patch.target)
  Store.each (fun file => Store.dropFile (p.root.below file)) stale
  Store.each p.writePatch s
  if p.hasSeries (← get) then Store.putFile p.seriesPath (.ofText (seriesText s))
  p.prune

end PatchDirectory

end Patchwork
