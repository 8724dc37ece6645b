import Patchwork.Text.HiddenChars

/-!
# Quoted text in messages

A message shows foreign text between double quotes, with every character that would be invisible or
ambiguous written as an escape.
-/
namespace Patchwork.Text

/-- `\u`, then the code point in lower-case hexadecimal between braces. -/
def escapeByNumber (c : Char) : List Char :=
  '\\' :: 'u' :: '\x7b' :: (Nat.toDigits 16 c.toNat ++ ['\x7d'])

def escapeChar (c : Char) : List Char :=
  if c = '\t' then ['\\', 't']
  else if c = '\r' then ['\\', 'r']
  else if c = '\n' then ['\\', 'n']
  else if c = '\\' then ['\\', '\\']
  else if c = '"' then ['\\', '"']
  else if c = '\x00' then ['\\', '0']
  else if isHidden c then escapeByNumber c
  else [c]

def quoted (s : String) : String :=
  String.ofList ('"' :: (s.toList.flatMap escapeChar ++ ['"']))

end Patchwork.Text
