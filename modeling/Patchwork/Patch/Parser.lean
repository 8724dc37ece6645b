import Patchwork.Hunk.Parser
import Patchwork.Patch.Basic
import Patchwork.Patch.FileName

/-!
# Reading patches

Anything may stand in front of the two header lines. After them come hunks only, whose number and
shape must fit what the headers say becomes of the file.
-/
namespace Patchwork.Patch

/-- What the names of both sides say: which file, and what becomes of it. -/
def kindOfNames (number : Nat) :
    Option TreePath → Option TreePath → Except ParseError (TreePath × PatchKind)
  | some old, some new =>
    if old = new then .ok (new, .modify) else .error ⟨number, .rename old new⟩
  | none, some new => .ok (new, .create)
  | some old, none => .ok (old, .delete)
  | none, none => .error ⟨number, .bothAbsent⟩

def hasOnlyInsertions (hunks : List Hunk) : Bool :=
  hunks.length ≤ 1 && hunks.all fun h => h.oldStart = 0 && h.oldLength = 0

def hasOnlyDeletions (hunks : List Hunk) : Bool :=
  hunks.length ≤ 1 && hunks.all fun h => h.newStart = 0 && h.newLength = 0

/-- The end of a hunk's old block, or the largest number if it lies beyond. -/
def oldEnd (h : Hunk) : Nat := min (h.oldIndex + h.oldLength) maxNumber

/-- The first hunk whose old block begins before `floor` or before the end of the one in front. -/
def firstOutOfOrder? (floor : Nat) : List Hunk → Option Hunk
  | [] => none
  | h :: hs => if h.oldIndex < floor then some h else firstOutOfOrder? (oldEnd h) hs

/-- What keeps the hunks from being those of a patch of the given kind. -/
def shapeFault? (kind : PatchKind) (hunks : List Hunk) : Option ParseFault :=
  if kind = .modify ∧ hunks = [] then some .noHunks
  else if kind = .create ∧ !hasOnlyInsertions hunks then some .notOnlyInsertions
  else if kind = .delete ∧ !hasOnlyDeletions hunks then some .notOnlyDeletions
  else (firstOutOfOrder? 0 hunks).map fun h => .hunksOutOfOrder h.header

def oldHeaderMark : List Char := ['-', '-', '-', ' ']

def newHeaderMark : List Char := ['+', '+', '+', ' ']

def headerValue? (mark : List Char) (line : String) : Option String :=
  if mark.isPrefixOf line.toList then some (String.ofList (line.toList.drop mark.length)) else none

/-- Skips lines up to the old header: its number, its value, and the lines after it. -/
def findOldHeader (number : Nat) : List String → Option (Nat × String × List String)
  | [] => none
  | l :: ls =>
    match headerValue? oldHeaderMark l with
    | some value => some (number, value, ls)
    | none => findOldHeader (number + 1) ls

def ofLines (lines : List String) : Except ParseError Patch := do
  let (number, value, lines) ← match findOldHeader 1 lines with
    | none => .error ⟨0, .noOldHeader⟩
    | some found => .ok found
  let old ← readName number .old value
  let (value, lines) ← match lines with
    | [] => .error ⟨number, .noNewHeader⟩
    | l :: ls =>
      match headerValue? newHeaderMark l with
      | none => .error ⟨number + 1, .otherThanNewHeader⟩
      | some value => .ok (value, ls)
  let new ← readName (number + 1) .new value
  let (path, kind) ← kindOfNames (number + 1) old new
  let hunks ← Hunk.readHunks (number + 2) lines
  match shapeFault? kind hunks with
  | some fault => .error ⟨number + 1, fault⟩
  | none => .ok ⟨path, kind, hunks⟩

def parse (text : String) : Except ParseError Patch := ofLines (Text.lines text)

end Patchwork.Patch

namespace Patchwork.StoredPatch

/-- Reads a stored patch, which must name the path that it is stored under. -/
def parse (p : StoredPatch) : Except Patch.ParseError Patch :=
  match Patch.parse p.body with
  | .error e => .error e
  | .ok patch =>
    if patch.path = p.target then .ok patch else .error ⟨0, .otherTarget patch.path p.target⟩

end Patchwork.StoredPatch
