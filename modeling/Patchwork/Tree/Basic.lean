import Patchwork.SortedMap
import Patchwork.TreePath

/-!
# Trees of files

A tree holds the octets of each file under its path. It has no directories of its own: a directory
is there when a file lies below it.
-/
namespace Patchwork

abbrev Content := ByteArray

instance : DecidableEq Content := fun a b =>
  decidable_of_iff (a.data = b.data) ⟨ByteArray.ext, congrArg ByteArray.data⟩

/-- The text that the octets encode, if they are UTF-8. -/
def Content.text? (c : Content) : Option String := String.fromUTF8? c

def Content.ofText (s : String) : Content := s.toUTF8

@[simp] theorem Content.text?_ofText (s : String) : (Content.ofText s).text? = some s := by
  simp only [Content.text?, Content.ofText, String.fromUTF8?, String.toUTF8]
  exact dif_pos s.isValidUTF8

/-- Files by path. -/
abbrev Tree := SortedMap TreePath Content

structure Snapshot where
  revision : String
  tree : Tree

end Patchwork
