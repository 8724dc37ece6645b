import Patchwork.Stack.Regenerate

/-!
# Carrying a stack to another base

The stack must apply to the base it was made for. It is replayed on the new base and regenerated
there, which renews its line numbers and contexts. A hunk whose context is gone is reported.
-/
namespace Patchwork

inductive RebaseError
  | conflict (path : TreePath) (hunk : Hunk.Conflict)
  | missingTarget (path : TreePath)
  | invalidBase (error : ApplyError)
  | regenerate (error : RegenerateError)
  deriving DecidableEq, Repr

namespace RebaseError

def path : RebaseError → TreePath
  | .conflict path _ => path
  | .missingTarget path => path
  | .invalidBase e => e.path
  | .regenerate e => e.path

def message : RebaseError → String
  | .conflict path hunk => path.display ++ ": " ++ hunk.message ++ "; resolve manually"
  | .missingTarget path => path.display ++ ": target file no longer exists upstream"
  | .invalidBase e => "patch set does not apply to the old upstream: " ++ e.message
  | .regenerate e => e.message

/-- What a failure on the new base means. -/
def ofApplyError (e : ApplyError) : RebaseError :=
  match e.failure with
  | .conflict hunk => .conflict e.path hunk
  | .missingTarget => .missingTarget e.path
  | _ => .invalidBase e

end RebaseError

namespace Stack

/-- Carries a stack from one base to another, in the order that it has. -/
def rebase (s : Stack) (old new : Tree) (context : Nat) : Except RebaseError Stack :=
  match s.replay old with
  | .error e => .error (.invalidBase e)
  | .ok _ =>
    match s.replay new with
    | .error e => .error (.ofApplyError e)
    | .ok carried => (regenerate new carried ⟨context, s.targets⟩).mapError .regenerate

end Stack

end Patchwork
