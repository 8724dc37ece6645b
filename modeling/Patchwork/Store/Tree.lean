import Patchwork.Store.Basic

/-!
# Trees on disk

Every file below a directory, under its path from there, makes up a tree. A tree is written as a
whole: it is built up in a new directory first, which then takes the place of the old one.
-/
namespace Patchwork

namespace Store

def versionControl : String := ".git"

/-- Whether an entry is passed over: it lies in a directory of version control or is excluded. -/
def isPassedOver (excludes : List TreePath) (names : Location) : Bool :=
  (List.range names.length).any fun n =>
    let names := names.take (n + 1)
    names.getLast?.any (·.text == versionControl) ||
      match TreePath.ofString (Location.text names) with
      | .ok p => p.isExcluded excludes
      | .error _ => false

def treeFiles (excludes : List TreePath) (d : Disk) (dir : Location) : List (Location × Content) :=
  (d.walk dir).filterMap fun e =>
    match e.2 with
    | .directory => none
    | .file content => if isPassedOver excludes e.1 then none else some (e.1, content)

/-- Reads the tree at a directory. Of two files whose paths become one, the later is kept. -/
def loadTree (root : DiskPath) (excludes : List TreePath) (d : Disk) : Except StoreError Tree := do
  let dir ← (d.locate root).mapError (.walk root)
  if (d.node? dir).isNone then .error (.walk root .notFound)
  else
    let files ← (treeFiles excludes d dir).mapM fun e => do
      return (← (TreePath.ofString (Location.text e.1)).mapError .invalidPath, e.2)
    return .ofList files

def placeFile (dir : DiskPath) (e : TreePath × Content) : Store Unit := do
  let p := dir.below e.1
  makeDirectories p.directory
  change p (·.putFile p e.2)

/-- Lets the directory `staging` take the place of `dest`. What was there is kept in `backup`
meanwhile and put back on a fault. -/
def swap (staging backup dest : DiskPath) : Store Unit := fun d =>
  let previous := backup.join ⟨"previous"⟩
  let setAside := if d.holds dest then d.move dest previous else .ok d
  match setAside with
  | .error fault => (.error (.io dest fault), d)
  | .ok moved =>
    match moved.move staging dest with
    | .ok d => (.ok (), d)
    | .error fault =>
      (.error (.io dest fault),
        if d.holds dest then (moved.move previous dest).toOption.getD moved else d)

/-- How the name of a directory begins in which what was at a place is kept for a while. -/
def backupStem : String := ".forkpatch-backup-"

/-- Lets the directory `staging` take the place of `dest`, with a backup beside it meanwhile. -/
def replaceBy (staging dest : DiskPath) : Store Unit :=
  withNewDirectory dest.directory backupStem fun backup => swap staging backup dest

/-- How the name of a directory begins in which a tree is built up. -/
def stagingStem : String := ".forkpatch-staging-"

def writeTree (t : Tree) (dest : DiskPath) : Store Unit := do
  let parent := dest.directory
  makeDirectories parent
  withNewDirectory parent stagingStem fun staging => do
    each (placeFile staging) t.toList
    replaceBy staging dest

end Store

end Patchwork
