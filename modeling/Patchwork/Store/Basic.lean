import Patchwork.Disk.Access
import Patchwork.Store.Error

/-!
# Working on a disk

A `Store` computation reads a disk and may change it. Where it fails, what it has written before
stays.
-/
namespace Patchwork

abbrev Store := ExceptT StoreError (StateM Disk)

namespace Store

def inspect {α : Type} (look : Disk → Except StoreError α) : Store α := fun d => (look d, d)

/-- Changes the disk; a fault is reported for the given path and leaves the disk alone. -/
def change (path : DiskPath) (step : Disk → Except DiskFault Disk) : Store Unit := fun d =>
  match step d with
  | .ok d => (.ok (), d)
  | .error fault => (.error (.io path fault), d)

def makeDirectories (p : DiskPath) : Store Unit := fun d =>
  match d.makeDirectories p with
  | (d, none) => (.ok (), d)
  | (d, some fault) => (.error (.io p fault), d)

def attempt (step : Disk → Except DiskFault Disk) : Store Unit := fun d =>
  match step d with
  | .ok d => (.ok (), d)
  | .error _ => (.ok (), d)

/-- Goes through a list in order, up to the first failure. -/
def each {α : Type} (step : α → Store Unit) : List α → Store Unit
  | [] => pure ()
  | a :: as => do
    step a
    each step as

/-- Reads a file, or nothing if there is none. -/
def file? (p : DiskPath) (d : Disk) : Except StoreError (Option Content) :=
  match d.content p with
  | .ok content => .ok (some content)
  | .error .notFound => .ok none
  | .error fault => .error (.io p fault)

def putFile (p : DiskPath) (content : Content) : Store Unit := do
  makeDirectories p.directory
  change p (·.renameInto p content)

def dropFile (p : DiskPath) : Store Unit := fun d =>
  match d.dropFile p with
  | .ok d => (.ok (), d)
  | .error .notFound => (.ok (), d)
  | .error fault => (.error (.io p fault), d)

/-- Text that starts with `stem` and is longer than every name on the disk that does so. -/
def freshName (stem : String) (d : Disk) : String :=
  let names := d.nodes.keys.flatten.filter fun name => stem.toList.isPrefixOf name.text.toList
  stem ++ "".pushn '0' ((names.map fun name => name.text.length).foldl max 0 + 1)

/-- Runs a computation with a new directory beside the entries of `parent`. Whatever comes of it,
the directory is removed afterwards. -/
def withNewDirectory {α : Type} (parent : DiskPath) (stem : String) (body : DiskPath → Store α) :
    Store α := fun d =>
  let p := parent.join ⟨freshName stem d⟩
  match d.makeDirectory p with
  | .error fault => (.error (.io parent fault), d)
  | .ok d =>
    let (result, d) := body p d
    (result, (attempt (·.dropAll p) d).2)

end Store

end Patchwork
