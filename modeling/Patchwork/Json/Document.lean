/-!
# Writing documents

A document is laid out with one element or field a line, two spaces further in than what holds it.
-/
namespace Patchwork.Json

inductive Value
  | text (value : String)
  | natural (value : Nat)
  | list (elements : List Value)
  | record (fields : List (String × Value))

def escapeChar (c : Char) : List Char :=
  if c = '"' then ['\\', '"']
  else if c = '\\' then ['\\', '\\']
  else if c = '\x08' then ['\\', 'b']
  else if c = '\x0c' then ['\\', 'f']
  else if c = '\n' then ['\\', 'n']
  else if c = '\r' then ['\\', 'r']
  else if c = '\t' then ['\\', 't']
  else if c.toNat < 0x20 then
    ['\\', 'u', '0', '0', Nat.digitChar (c.toNat / 16), Nat.digitChar (c.toNat % 16)]
  else [c]

def quoted (s : String) : List Char := '"' :: (s.toList.flatMap escapeChar ++ ['"'])

def newline (depth : Nat) : List Char := '\n' :: List.replicate (2 * depth) ' '

/-- Lays out parts between brackets, each on a line of its own. -/
def enclose (depth : Nat) (opening closing : Char) (parts : List (List Char)) : List Char :=
  if parts.isEmpty then [opening, closing]
  else
    opening :: (List.intercalate [','] (parts.map (newline (depth + 1) ++ ·)) ++
      newline depth ++ [closing])

mutual

def Value.render (depth : Nat) : Value → List Char
  | .text value => quoted value
  | .natural value => Nat.toDigits 10 value
  | .list elements => enclose depth '[' ']' (renderElements depth elements)
  | .record fields => enclose depth '\x7b' '\x7d' (renderFields depth fields)

def renderElements (depth : Nat) : List Value → List (List Char)
  | [] => []
  | v :: vs => v.render (depth + 1) :: renderElements depth vs

def renderFields (depth : Nat) : List (String × Value) → List (List Char)
  | [] => []
  | (name, v) :: fields =>
    (quoted name ++ [':', ' '] ++ v.render (depth + 1)) :: renderFields depth fields

end

/-- The text of a document, which ends with a newline. -/
def Value.document (v : Value) : String := String.ofList (v.render 0 ++ ['\n'])

end Patchwork.Json
