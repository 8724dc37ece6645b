import Patchwork.Tree.Basic

/-!
# Regions of a tree

The region of a directory is everything at or below it, less what is excluded there. A region can be
taken out as a tree of its own, emptied, and filled from another tree.
-/
namespace Patchwork.Tree

/-- The files below `dir` under their paths from there, without the excluded ones. -/
def subtree (t : Tree) (dir : TreePath) (excludes : List TreePath) : Tree :=
  .ofList <| t.toList.filterMap fun e =>
    match e.1.relativeTo? dir with
    | none => none
    | some p => if p.isRoot || p.isExcluded excludes then none else some (p, e.2)

def graft (t : Tree) (dir : TreePath) (s : Tree) : Tree :=
  s.toList.foldl (fun t e => t.insert (dir.join e.1) e.2) t

/-- Drops what lies at or below `dir` and is not excluded there. -/
def clearRegion (t : Tree) (dir : TreePath) (excludes : List TreePath) : Tree :=
  t.filter fun p _ =>
    match p.relativeTo? dir with
    | none => true
    | some q => q.isExcluded excludes

def single (path : TreePath) : Option Content → Tree
  | none => .empty
  | some content => .ofList [(path, content)]

end Patchwork.Tree
