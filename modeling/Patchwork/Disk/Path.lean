import Patchwork.Disk.Location
import Patchwork.TreePath

/-!
# Paths on a disk

A `DiskPath` is the text under which a place on disk is asked for. Messages show the text as it was
given, and two texts may mean the same place: what counts are the steps from a starting directory.
-/
namespace Patchwork

/-- The text that leads to a place on disk. -/
structure DiskPath where
  text : String
  deriving DecidableEq, Repr, Inhabited

namespace DiskPath

/-- One step of a path. Only the first can go to the root or stay where it is. -/
inductive Step
  | root
  | here
  | up
  | into (name : FileName)
  deriving DecidableEq, Repr

def Step.text : Step → String
  | .root => "/"
  | .here => "."
  | .up => ".."
  | .into name => name.text

def segments (p : DiskPath) : List (List Char) := p.text.toList.splitOn '/'

/-- An empty segment and a `.` lead nowhere. -/
def stepOfSegment (segment : List Char) : Option Step :=
  if segment = ['.', '.'] then some .up else (FileName.ofChars? segment).map .into

/-- The steps of a path. A `.` is a step of its own only at the start. -/
def steps (p : DiskPath) : List Step :=
  match p.segments with
  | [[]] => []
  | [] :: segments => .root :: segments.filterMap stepOfSegment
  | ['.'] :: segments => .here :: segments.filterMap stepOfSegment
  | segments => segments.filterMap stepOfSegment

def textOfSteps (steps : List Step) : String := "/".intercalate (steps.map Step.text)

def join (p q : DiskPath) : DiskPath :=
  if q.text.startsWith "/" || p.text.isEmpty then q
  else if p.text.endsWith "/" then ⟨p.text ++ q.text⟩
  else ⟨p.text ++ "/" ++ q.text⟩

/-- The place of a tree path below the directory `p`. -/
def below (p : DiskPath) (q : TreePath) : DiskPath :=
  q.components.foldl (fun p name => p.join ⟨String.ofList name⟩) p

def belowNames (p : DiskPath) (names : Location) : DiskPath :=
  names.foldl (fun p name => p.join ⟨name.text⟩) p

def inTree (p base : DiskPath) : Except TreePath.Invalid TreePath :=
  if base.steps.isPrefixOf p.steps then
    TreePath.ofString (textOfSteps (p.steps.drop base.steps.length))
  else .error ⟨p.text, .outside⟩

/-- A segment that leads nowhere unless it comes first. -/
def isIdle (segment : List Char) : Bool := segment.isEmpty || segment = ['.']

def trimIdle (segments : List (List Char)) : List (List Char) :=
  (segments.reverse.dropWhile isIdle).reverse

/-- The path without its last step; the root and the empty path have none. -/
def parent? (p : DiskPath) : Option DiskPath :=
  match p.segments with
  | [] => none
  | first :: rest =>
    match trimIdle rest with
    | [] => if first.isEmpty then none else some ⟨""⟩
    | rest =>
      match trimIdle rest.dropLast with
      | [] => some ⟨if first.isEmpty then "/" else String.ofList first⟩
      | rest => some ⟨String.ofList (List.intercalate ['/'] (first :: rest))⟩

def directory (p : DiskPath) : DiskPath :=
  match p.parent? with
  | none => ⟨"."⟩
  | some d => if d.text.isEmpty then ⟨"."⟩ else d

/-- Whether the text ends in a way that only a directory can be meant. -/
def asksForDirectory (p : DiskPath) : Bool := (p.segments.getLast?.map isIdle).getD false

def lastSegment? (p : DiskPath) : Option (List Char) := (p.segments.filter (· ≠ [])).getLast?

/-- The steps of a path on its way through a disk. A `.` at the end is a step too, which only a
directory allows. -/
def route (p : DiskPath) : List Step :=
  if p.lastSegment? = some ['.'] then p.steps ++ [.here] else p.steps

/-- Whether the last name is `.` or `..`, which name a directory but no entry of its parent. -/
def endsInDots (p : DiskPath) : Bool :=
  match p.lastSegment? with
  | none => true
  | some segment => segment = ['.'] || segment = ['.', '.']

def holdsNul (p : DiskPath) : Bool := p.text.toList.contains '\x00'

/-- A path is followed if it has 4095 octets at most. -/
def isTooLong (p : DiskPath) : Bool := 4095 < p.text.utf8ByteSize

end DiskPath

end Patchwork
