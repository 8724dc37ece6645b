import Patchwork.Patch.Between
import Patchwork.Patch.Printer
import Patchwork.Stack.Replay

/-!
# Regenerating a stack from two trees

One patch for each file that differs between a base and what was derived from it, in path order or
in the order of an earlier stack.
-/
namespace Patchwork

/-- Why the difference of two trees is no stack of patches. That the hunks between two texts cannot
be read back is no reason: they always can (`Patch.betweenReread_eq`). -/
inductive RegenerateError
  | notText (path : TreePath)
  | unstable (path : TreePath)
  deriving DecidableEq, Repr

namespace RegenerateError

def path : RegenerateError → TreePath
  | .notText path => path
  | .unstable path => path

def message : RegenerateError → String
  | .notText path => path.display ++ ": file differs but is not UTF-8 text"
  | .unstable path => path.display ++ ": generated diff does not reproduce the derived file"

end RegenerateError

namespace Stack

/-- The patches whose targets are listed, in the order of the list, and the others after them.
Patches of one target keep their order, so this is a stable sort (`arrange_eq_mergeSort`). -/
def arrange (s : Stack) (order : List TreePath) : Stack :=
  (order.eraseDups.flatMap fun target => s.filter (·.target = target)) ++
    s.filter (·.target ∉ order)

structure Options where
  /-- The lines kept around each change. -/
  context : Nat := Patch.defaultContext
  /-- The targets of an earlier stack, whose order is kept. -/
  order : List TreePath := []

/-- The text of a version, if there is one; a version that is not UTF-8 is refused. -/
def versionText (path : TreePath) (version : Option Content) :
    Except RegenerateError (Option String) :=
  match version with
  | none => .ok none
  | some content =>
    match content.text? with
    | none => .error (.notText path)
    | some text => .ok (some text)

/-- The patch for one file, if its versions differ. Its hunks must give the new text back. -/
def patchBetween (path : TreePath) (old new : Option Content) (context : Nat) :
    Except RegenerateError (Option StoredPatch) :=
  if old = new then .ok none
  else do
    let oldText ← versionText path old
    let newText ← versionText path new
    match Patch.between path oldText newText context with
    | none => .ok none
    | some patch =>
      match Hunk.applyAll (oldText.getD "") patch.hunks with
      | .ok text =>
        if text = newText.getD "" then .ok (some patch.toStored) else .error (.unstable path)
      | .error _ => .error (.unstable path)

def patchesBetween (base derived : Tree) (context : Nat) :
    List TreePath → Except RegenerateError Stack
  | [] => .ok []
  | path :: paths => do
    let patch ← patchBetween path (base.get? path) (derived.get? path) context
    let rest ← patchesBetween base derived context paths
    return patch.toList ++ rest

def regenerate (base derived : Tree) (options : Options) : Except RegenerateError Stack := do
  let s ← patchesBetween base derived options.context (base.union derived).keys
  return s.arrange options.order

end Stack

end Patchwork
