import Patchwork.TreePath

/-!
# Faults in the text of a patch
-/
namespace Patchwork.Patch

inductive ParseFault
  | noOldHeader
  | noNewHeader
  | otherThanNewHeader
  | rename (old new : TreePath)
  | bothAbsent
  | malformedName
  | invalidPath (error : TreePath.Invalid)
  | emptyPath
  | otherThanHunk (found : String)
  | numberOutOfBounds
  | bodyCutShort
  | bodyTooLong
  | otherThanBodyLine (found : String)
  | strayMarker
  | noHunks
  | notOnlyInsertions
  | notOnlyDeletions
  | hunksOutOfOrder (header : String)
  | otherTarget (named target : TreePath)
  deriving DecidableEq, Repr

def ParseFault.message : ParseFault → String
  | .noOldHeader => "missing '--- ' file header"
  | .noNewHeader => "missing '+++ ' file header"
  | .otherThanNewHeader => "expected '+++ ' file header"
  | .rename old new =>
    "renames are not supported (" ++ old.display ++ " -> " ++ new.display ++ ")"
  | .bothAbsent => "both sides are /dev/null"
  | .malformedName => "malformed quoted file name"
  | .invalidPath e => e.message
  | .emptyPath => "empty file path"
  | .otherThanHunk found => "expected hunk header, found " ++ Text.quoted found
  | .numberOutOfBounds => "hunk range out of bounds"
  | .bodyCutShort => "hunk ends before the line counts in its header are reached"
  | .bodyTooLong => "hunk body is longer than its header announces"
  | .otherThanBodyLine found => "unexpected line in hunk body: " ++ Text.quoted found
  | .strayMarker => "'\\ No newline at end of file' without a preceding line"
  | .noHunks => "patch has no hunks"
  | .notOnlyInsertions => "a creation patch must be a single insert-only hunk"
  | .notOnlyDeletions => "a deletion patch must be a single delete-only hunk"
  | .hunksOutOfOrder header => "hunk " ++ header ++ " overlaps or precedes the previous hunk"
  | .otherTarget named target =>
    "header names " ++ named.display ++ " instead of " ++ target.display

/-- A fault and the line it stands on, counted from 1; 0 stands for the whole text. -/
structure ParseError where
  line : Nat
  fault : ParseFault
  deriving DecidableEq, Repr

def ParseError.message (e : ParseError) : String :=
  "line " ++ toString e.line ++ ": " ++ e.fault.message

end Patchwork.Patch
