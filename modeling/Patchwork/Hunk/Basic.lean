import Patchwork.Text.Lines

/-!
# Hunks

A hunk replaces one block of lines by another. Its header tells where the block stands on both
sides, its body holds the lines of both sides in one list. The old side is what the hunk expects to
find (`Hunk.oldLines`), the new side what it leaves behind (`Hunk.newLines`).
-/
namespace Patchwork

/-- The largest number that a header can hold. -/
def maxNumber : Nat := UInt64.size - 1

inductive LineKind
  | context
  | deletion
  | insertion
  deriving DecidableEq, Repr

namespace LineKind

def sigil : LineKind → Char
  | .context => ' '
  | .deletion => '-'
  | .insertion => '+'

def isOld (k : LineKind) : Bool := k ≠ .insertion

def isNew (k : LineKind) : Bool := k ≠ .deletion

end LineKind

/-- A line of a hunk's body. Its text keeps its newline; a line without one ends its file. -/
structure Line where
  kind : LineKind
  text : String
  deriving DecidableEq, Repr

namespace Line

def unterminatedMarker : String := "\\ No newline at end of file"

def render (l : Line) : String :=
  let shown := String.singleton l.kind.sigil ++ l.text
  if Text.isTerminated l.text then shown else shown ++ "\n" ++ unterminatedMarker ++ "\n"

/-- The line as it stands in a report, where a missing newline is not marked. -/
def renderPlain (l : Line) : String :=
  let shown := String.singleton l.kind.sigil ++ l.text
  if Text.isTerminated l.text then shown else shown ++ "\n"

end Line

structure Hunk where
  /-- The first old line, counted from 1; without old lines, the line in front of the hunk. -/
  oldStart : Nat
  oldLength : Nat
  newStart : Nat
  newLength : Nat
  /-- The text after the header's numbers. -/
  heading : Option String
  lines : List Line
  deriving DecidableEq, Repr

namespace Hunk

/-- A start and a length; a length of one is left out. -/
def rangeText (start length : Nat) : String :=
  if length = 1 then toString start else toString start ++ "," ++ toString length

def header (h : Hunk) : String :=
  "@@ -" ++ rangeText h.oldStart h.oldLength ++ " +" ++ rangeText h.newStart h.newLength ++ " @@" ++
    match h.heading with
    | none => ""
    | some heading => " " ++ heading

/-- What the hunk expects to find. -/
def oldLines (h : Hunk) : List String := (h.lines.filter (·.kind.isOld)).map (·.text)

/-- What the hunk leaves behind. -/
def newLines (h : Hunk) : List String := (h.lines.filter (·.kind.isNew)).map (·.text)

/-- How many lines stand in front of the block that the header declares. -/
def oldIndex (h : Hunk) : Nat := if h.oldLength = 0 then h.oldStart else h.oldStart - 1

def render (h : Hunk) : String := h.header ++ "\n" ++ Text.join (h.lines.map Line.render)

/-- The body as it stands in a report. -/
def plainBody (h : Hunk) : String := Text.join (h.lines.map Line.renderPlain)

end Hunk

end Patchwork
