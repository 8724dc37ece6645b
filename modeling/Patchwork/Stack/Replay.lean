import Patchwork.Hunk.Placement
import Patchwork.Patch.Parser
import Patchwork.Tree.Basic

/-!
# Replaying a stack of patches

A patch reads and changes one file only, so its effect is a function of what that file holds
(`Patch.onFile`). A stack is replayed on a tree patch by patch, each on the result of those before
it, and stops at the first that fails.
-/
namespace Patchwork

inductive ApplyFailure
  | conflict (hunk : Hunk.Conflict)
  | missingTarget
  | malformed (error : Patch.ParseError)
  | notText
  deriving DecidableEq, Repr

def ApplyFailure.message : ApplyFailure → String
  | .conflict hunk => hunk.message
  | .missingTarget => "target file does not exist"
  | .malformed e => "malformed diff at " ++ e.message
  | .notText => "target file is not UTF-8 text"

structure ApplyError where
  path : TreePath
  failure : ApplyFailure
  deriving DecidableEq, Repr

def ApplyError.message (e : ApplyError) : String := e.path.display ++ ": " ++ e.failure.message

def ApplyError.isConflict (e : ApplyError) : Bool :=
  match e.failure with
  | .conflict _ => true
  | _ => false

namespace Patch

/-- The report on a patch that fails as a whole, by its first hunk if it has one. -/
def wholeConflict (p : Patch) : Hunk.Conflict :=
  match p.hunks with
  | h :: _ => Hunk.conflict 0 h 0
  | [] => ⟨0, "@@ -0,0 +0,0 @@", 1, ""⟩

def onText (p : Patch) (text : String) : Except ApplyFailure String :=
  (Hunk.applyAll text p.hunks).mapError .conflict

/-- What becomes of the file, where `none` stands for its absence. A file can be created only where
there is none, and deleted only if the patch takes all of it. -/
def onFile (p : Patch) (current : Option Content) : Except ApplyFailure (Option Content) :=
  match p.kind with
  | .create =>
    if current.isSome then .error (.conflict p.wholeConflict)
    else (p.onText "").map fun text => some (.ofText text)
  | kind =>
    match current with
    | none => .error .missingTarget
    | some content =>
      match content.text? with
      | none => .error .notText
      | some text =>
        match p.onText text with
        | .error failure => .error failure
        | .ok result =>
          if kind = .modify then .ok (some (.ofText result))
          else if result.isEmpty then .ok none
          else .error (.conflict p.wholeConflict)

end Patch

namespace Tree

/-- Stores what a file holds, or that it is absent. -/
def put (t : Tree) (path : TreePath) : Option Content → Tree
  | none => t.erase path
  | some content => t.insert path content

@[simp] theorem get?_put (t : Tree) (path : TreePath) (content : Option Content) (p : TreePath) :
    (t.put path content).get? p = if p = path then content else t.get? p := by
  cases content <;> simp [put]

end Tree

namespace StoredPatch

def onFile (p : StoredPatch) (current : Option Content) : Except ApplyFailure (Option Content) :=
  match p.parse with
  | .error e => .error (.malformed e)
  | .ok patch => patch.onFile current

def apply (p : StoredPatch) (t : Tree) : Except ApplyError Tree :=
  match p.onFile (t.get? p.target) with
  | .error failure => .error ⟨p.target, failure⟩
  | .ok content => .ok (t.put p.target content)

end StoredPatch

namespace Stack

def replay (s : Stack) (t : Tree) : Except ApplyError Tree :=
  match s with
  | [] => .ok t
  | p :: s =>
    match p.apply t with
    | .error e => .error e
    | .ok t => replay s t

def targets (s : Stack) : List TreePath := s.map (·.target)

end Stack

end Patchwork
