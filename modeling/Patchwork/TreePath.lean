import Patchwork.Text.Quoted

/-!
# Paths inside a tree

A `TreePath` names a file or a directory relative to the root of a tree. Its text holds the names
from the root down, separated by `/`; the empty text is the root itself. `TreePath.ofString` brings
any relative path into this form and refuses one that could leave the tree.
-/
namespace Patchwork

/-- The names from the root down, separated by `/`. -/
structure TreePath where
  text : String
  deriving DecidableEq, Repr, Inhabited

namespace TreePath

/-- Paths are ordered by the code points of their text, which is the order of its octets too. -/
instance : Ord TreePath := ⟨fun p q => compare p.text q.text⟩

instance : Std.TransOrd TreePath where
  eq_swap {p q} := @Std.OrientedCmp.eq_swap String compare _ p.text q.text
  isLE_trans {p q r} h h' := @Std.TransCmp.isLE_trans String compare _ p.text q.text r.text h h'

instance : Std.LawfulEqOrd TreePath where
  compare_self {p} := @Std.ReflCmp.compare_self String compare _ p.text
  eq_of_compare {p q} h := by
    have := @Std.LawfulEqCmp.eq_of_compare String compare _ p.text q.text h
    cases p; cases q; simp_all

inductive Fault
  | absolute
  | parent
  | outside
  deriving DecidableEq, Repr

def Fault.reason : Fault → String
  | .absolute => "path must be relative"
  | .parent => "path must not contain '..'"
  | .outside => "path is outside of the base directory"

structure Invalid where
  text : String
  fault : Fault
  deriving DecidableEq, Repr

def Invalid.message (e : Invalid) : String :=
  "invalid relative path " ++ Text.quoted e.text ++ ": " ++ e.fault.reason

def root : TreePath := ⟨""⟩

def isRoot (p : TreePath) : Bool := p.text.isEmpty

def isSeparator (c : Char) : Bool := c = '/' || c = '\\'

/-- A path that starts at a root or at a drive. -/
def isAbsoluteText : List Char → Bool
  | c :: ':' :: _ => isSeparator c || c.isAlpha
  | c :: _ => isSeparator c
  | [] => false

/-- The names between the separators; empty names and `.` name nothing. -/
def namesOfText (cs : List Char) : List (List Char) :=
  (cs.splitOnP isSeparator).filter fun name => name ≠ [] ∧ name ≠ ['.']

def ofNames (names : List (List Char)) : TreePath :=
  ⟨String.ofList (List.intercalate ['/'] names)⟩

/-- Normalises a relative path. A root, a drive or a `..` anywhere is refused. -/
def ofString (s : String) : Except Invalid TreePath :=
  if isAbsoluteText s.toList then .error ⟨s, .absolute⟩
  else if ['.', '.'] ∈ namesOfText s.toList then .error ⟨s, .parent⟩
  else .ok (ofNames (namesOfText s.toList))

/-- A path that normalisation leaves alone. -/
def IsStable (p : TreePath) : Prop := ofString p.text = .ok p

def components (p : TreePath) : List (List Char) :=
  (p.text.toList.splitOn '/').filter (· ≠ [])

def fileName? (p : TreePath) : Option String := p.components.getLast?.map String.ofList

def join (p q : TreePath) : TreePath :=
  if p.isRoot then q
  else if q.isRoot then p
  else ⟨p.text ++ "/" ++ q.text⟩

/-- Lengthens the last name. -/
def addSuffix (p : TreePath) (suffix : String) : TreePath := ⟨p.text ++ suffix⟩

def isWithin (p d : TreePath) : Bool :=
  d.isRoot ||
    (d.text.toList.isPrefixOf p.text.toList &&
      match p.text.toList.drop d.text.toList.length with
      | [] => true
      | c :: _ => c = '/')

def relativeTo? (p d : TreePath) : Option TreePath :=
  if !p.isWithin d then none
  else if d.isRoot then some p
  else some ⟨String.ofList
    ((p.text.toList.drop d.text.toList.length).dropWhile (· = '/'))⟩

def overlaps (p q : TreePath) : Bool := p.isWithin q || q.isWithin p

/-- The text shown to a reader, with `.` for the root. -/
def display (p : TreePath) : String := if p.isRoot then "." else p.text

def isExcluded (p : TreePath) (excludes : List TreePath) : Bool := excludes.any p.isWithin

end TreePath

end Patchwork
