import Patchwork.Disk.Basic
import Patchwork.Disk.Fault
import Patchwork.Disk.Path

/-!
# Reading and changing a disk

Operations on what a path leads to. A path is followed step by step from the root of the disk, and
only through directories. An operation that fails returns a fault instead of a disk, so it leaves no
trace; the one exception is `makeDirectories`, which makes several entries.
-/
namespace Patchwork

/-- What is wrong with a path, whatever the disk holds. -/
def DiskPath.fault? (p : DiskPath) : Option DiskFault :=
  if p.holdsNul then some .holdsNul
  else if p.text.isEmpty then some .notFound
  else if p.isTooLong then some .nameTooLong
  else none

/-- Where a step from `l` leads, unless it leaves the disk. -/
def Location.step (l : Location) : DiskPath.Step → Except DiskFault Location
  | .root => .error .notFound
  | .here => .ok l
  | .up => if l = [] then .error .notFound else .ok l.dropLast
  | .into name => if name.isTooLong then .error .nameTooLong else .ok (l ++ [name])

namespace Disk

def follow (d : Disk) (l : Location) : List DiskPath.Step → Except DiskFault Location
  | [] => .ok l
  | step :: steps =>
    match d.node? l with
    | none => .error .notFound
    | some (.file _) => .error .notADirectory
    | some .directory =>
      match l.step step with
      | .error fault => .error fault
      | .ok l => d.follow l steps

/-- The location that a path leads to. Nothing need be there, but what it would lie in is a
directory. -/
def locate (d : Disk) (p : DiskPath) : Except DiskFault Location :=
  match p.fault? with
  | some fault => .error fault
  | none => do
    let l ← d.follow [] p.route
    match d.node? l with
    | some (.file _) => if p.asksForDirectory then .error .notADirectory else .ok l
    | _ => .ok l

def nodeAt (d : Disk) (p : DiskPath) : Except DiskFault Node := do
  match d.node? (← d.locate p) with
  | some node => .ok node
  | none => .error .notFound

def holds (d : Disk) (p : DiskPath) : Bool :=
  match d.nodeAt p with
  | .ok _ => true
  | .error _ => false

def holdsFile (d : Disk) (p : DiskPath) : Bool :=
  match d.nodeAt p with
  | .ok (.file _) => true
  | _ => false

def holdsDirectory (d : Disk) (p : DiskPath) : Bool :=
  match d.nodeAt p with
  | .ok .directory => true
  | _ => false

def content (d : Disk) (p : DiskPath) : Except DiskFault Content := do
  match ← d.nodeAt p with
  | .file content => .ok content
  | .directory => .error .isADirectory

def text (d : Disk) (p : DiskPath) : Except DiskFault String := do
  match (← d.content p).text? with
  | some text => .ok text
  | none => .error (.notText none)

/-- Whatever lies at or below a location, under the names that lead there. A directory comes before
its entries, and these follow each other by name. -/
def walk (d : Disk) (dir : Location) : List (Location × Node) :=
  d.nodes.toList.filterMap fun e => (e.1.relativeTo? dir).map (·, e.2)

def putAt (d : Disk) (l : Location) (node : Node) : Except DiskFault Disk :=
  match l.getLast? with
  | none => .error .isADirectory
  | some name =>
    if hd : d.node? l.dropLast = some .directory then
      if hk : node = .directory ∨ d.node? (l.dropLast ++ [name]) ≠ some .directory then
        .ok (d.put l.dropLast name node hd hk)
      else .error .isADirectory
    else .error .notFound

def makeDirectory (d : Disk) (p : DiskPath) : Except DiskFault Disk := do
  let l ← d.locate p
  if (d.node? l).isSome then .error .alreadyExists else d.putAt l .directory

/-- Makes the directories that are missing along the steps from the directory `l`, up to a fault. Of
a file in the way it is said that it exists if it comes last, or if a directory was made before it;
but before a `.` at the end it is no directory. -/
def makeDirectoriesFrom (d : Disk) (l : Location) (made : Bool) :
    List DiskPath.Step → Disk × Option DiskFault
  | [] => (d, none)
  | step :: steps =>
    match l.step step with
    | .error fault => (d, some fault)
    | .ok l =>
      match d.node? l with
      | some .directory => d.makeDirectoriesFrom l made steps
      | some (.file _) =>
        (d, some (if steps ≠ [.here] && (made || steps.isEmpty) then .alreadyExists
          else .notADirectory))
      | none =>
        if steps = [.here] then (d, some .notFound)
        else
          match d.putAt l .directory with
          | .error fault => (d, some fault)
          | .ok d => d.makeDirectoriesFrom l true steps

/-- Makes a directory and those that it lies in, as far as they are missing. What has been made
before a fault stays. Nothing is made for the empty path. -/
def makeDirectories (d : Disk) (p : DiskPath) : Disk × Option DiskFault :=
  if p.text.isEmpty then (d, none)
  else
    match p.fault? with
    | some fault => (d, some fault)
    | none => d.makeDirectoriesFrom [] false p.route

def putFile (d : Disk) (p : DiskPath) (content : Content) : Except DiskFault Disk := do
  let l ← d.locate p
  if p.endsInDots then .error .busy
  else if p.asksForDirectory then .error .notADirectory
  else d.putAt l (.file content)

/-- Stores a file that was written beside its place and takes it by being renamed. -/
def renameInto (d : Disk) (p : DiskPath) (content : Content) : Except DiskFault Disk :=
  if p.holdsNul then .error .invalidArgument else d.putFile p content

def dropAt (d : Disk) (l : Location) : Except DiskFault Disk :=
  if h : l ≠ [] then .ok (d.dropRegion l h) else .error .busy

def dropFile (d : Disk) (p : DiskPath) : Except DiskFault Disk := do
  let l ← d.locate p
  match d.node? l with
  | none => .error .notFound
  | some .directory => .error .isADirectory
  | some (.file _) => d.dropAt l

def hasEntries (d : Disk) (l : Location) : Bool := d.nodes.keys.any fun k => k ≠ l && k.isWithin l

theorem hasEntries_eq_false {d : Disk} {l : Location} (h : d.hasEntries l = false)
    (name : FileName) : d.node? (l ++ [name]) = none := by
  cases hn : d.node? (l ++ [name]) with
  | none => rfl
  | some node =>
    have hm := SortedMap.get?_eq_some_iff.1 hn
    have := List.any_eq_false.1 h _ (List.mem_map.2 ⟨_, hm, rfl⟩)
    simp at this

def dropEmptyDirectory (d : Disk) (l : Location) : Except DiskFault Disk :=
  match d.node? l with
  | none => .error .notFound
  | some (.file _) => .error .notADirectory
  | some .directory => if d.hasEntries l then .error .notEmpty else d.dropAt l

def dropAll (d : Disk) (p : DiskPath) : Except DiskFault Disk := do
  let l ← d.locate p
  if d.node? l = none then .error .notFound else d.dropAt l

/-- Gives a region another place. A file there is replaced by a file, an empty directory by a
directory. -/
def moveTo (d : Disk) (src dst : Location) : Except DiskFault Disk :=
  match d.node? src, dst.getLast? with
  | none, _ => .error .notFound
  | some _, none => .error .busy
  | some node, some name =>
    if src = dst then .ok d
    else if node = .directory ∧ (d.node? dst).any (· ≠ .directory) then .error .notADirectory
    else if node ≠ .directory ∧ d.node? dst = some .directory then .error .isADirectory
    else if hs : src = [] then .error .busy
    else if ho : src <+: dst.dropLast then .error .invalidArgument
    else if hd : d.node? dst.dropLast = some .directory then
      if hf : d.hasEntries (dst.dropLast ++ [name]) = false then
        .ok (d.moveRegion src dst.dropLast name hs ho hd (hasEntries_eq_false hf))
      else .error .notEmpty
    else .error .notFound

def move (d : Disk) (p q : DiskPath) : Except DiskFault Disk := do
  let src ← d.locate p
  let dst ← d.locate q
  if p.endsInDots || q.endsInDots then .error .busy else d.moveTo src dst

/-- Every file with its content and every empty directory, whose path ends in `/`, in the order of
their paths. -/
def listing (d : Disk) : List (String × Option Content) :=
  let entries := d.nodes.toList.filterMap fun (l, node) =>
    match node with
    | .file content => some (l.text, some content)
    | .directory => if l = [] || d.hasEntries l then none else some (l.text ++ "/", none)
  entries.mergeSort fun a b => a.1 ≤ b.1

end Disk

end Patchwork
