import Patchwork.Patch.ParseError
import Patchwork.Text.CharClass
import Patchwork.Text.Lines

/-!
# File names in patch headers

A header names a file as `a/` or `b/` and its path. A name with a control character, a quote or a
backslash is written between quotes, with octets in octal; a name with a space is closed by a tab,
so that space at its end is not lost. `/dev/null` stands for a side that does not exist.
-/
namespace Patchwork.Patch

def absentName : String := "/dev/null"

/-- The side of a patch, and the letter in front of its names. -/
inductive Side
  | old
  | new
  deriving DecidableEq, Repr

def Side.mark : Side → List Char
  | .old => ['a', '/']
  | .new => ['b', '/']

/-! ## Quoting -/

def octalDigit (n : Nat) : Char := Char.ofNat ('0'.toNat + n % 8)

def quoteOctet (b : UInt8) : List Char :=
  ['\\', octalDigit (b.toNat / 64), octalDigit (b.toNat / 8), octalDigit b.toNat]

def quoteChar (c : Char) : List Char :=
  if c = '"' then ['\\', '"']
  else if c = '\\' then ['\\', '\\']
  else if c = '\t' then ['\\', 't']
  else if c = '\n' then ['\\', 'n']
  else if c = '\r' then ['\\', 'r']
  else if Text.isControl c then (String.utf8EncodeChar c).flatMap quoteOctet
  else [c]

def needsQuotes (cs : List Char) : Bool :=
  cs.any fun c => Text.isControl c || c = '"' || c = '\\'

/-- A name between quotes. The mark in front needs no escapes. -/
def quoteName (side : Side) (cs : List Char) : List Char :=
  '"' :: (side.mark ++ cs.flatMap quoteChar ++ ['"'])

def headerName (side : Side) (path : TreePath) : List Char :=
  let cs := path.text.toList
  if needsQuotes cs then quoteName side cs
  else if ' ' ∈ cs then side.mark ++ cs ++ ['\t']
  else side.mark ++ cs

/-! ## Reading -/

def octalValue? (c : Char) : Option Nat :=
  if '0' ≤ c ∧ c ≤ '7' then some (c.toNat - '0'.toNat) else none

/-- What a letter after a backslash stands for. -/
def escapedOctet? : Char → Option UInt8
  | 't' => some 0x09
  | 'n' => some 0x0a
  | 'r' => some 0x0d
  | 'a' => some 0x07
  | 'b' => some 0x08
  | 'f' => some 0x0c
  | 'v' => some 0x0b
  | '"' => some 0x22
  | '\\' => some 0x5c
  | _ => none

/-- The octets up to the closing quote; what follows it is ignored. -/
def unquoteOctets : List Char → Option (List UInt8)
  | [] => none
  | '"' :: _ => some []
  | '\\' :: c :: cs =>
    match escapedOctet? c with
    | some b => (unquoteOctets cs).map (b :: ·)
    | none =>
      match cs with
      | d :: e :: cs =>
        match octalValue? c, octalValue? d, octalValue? e with
        | some x, some y, some z =>
          if x ≤ 3 then (unquoteOctets cs).map (UInt8.ofNat (x * 64 + y * 8 + z) :: ·) else none
        | _, _, _ => none
      | _ => none
  | c :: cs => (unquoteOctets cs).map (String.utf8EncodeChar c ++ ·)

def unquoteName? (cs : List Char) : Option String :=
  match cs with
  | '"' :: cs => (unquoteOctets cs).bind fun bytes => String.fromUTF8? ⟨bytes.toArray⟩
  | _ => none

/-- The name without the mark of its side, if it has one. -/
def dropMark (side : Side) (cs : List Char) : List Char :=
  if side.mark.isPrefixOf cs then cs.drop side.mark.length else cs

def pathOfName (number : Nat) (side : Side) (name : List Char) : Except ParseError TreePath :=
  match TreePath.ofString (String.ofList (dropMark side name)) with
  | .error e => .error ⟨number, .invalidPath e⟩
  | .ok path => if path.isRoot then .error ⟨number, .emptyPath⟩ else .ok path

/-- Reads the name of a header line, from what follows its first four characters. Without quotes a
tab ends the name. -/
def readName (number : Nat) (side : Side) (value : String) :
    Except ParseError (Option TreePath) :=
  let cs := (Text.stripTerminator value).toList
  if cs.head? = some '"' then
    match unquoteName? cs with
    | none => .error ⟨number, .malformedName⟩
    | some name => (pathOfName number side name.toList).map some
  else
    let name := cs.takeWhile (· ≠ '\t')
    if name = absentName.toList then .ok none
    else (pathOfName number side name).map some

end Patchwork.Patch
