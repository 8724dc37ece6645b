import Patchwork.Text.Search

/-!
# Names of revisions

The text that asks for a revision is handed to a program as an argument, so it must look neither
like an option nor like a range of revisions.
-/
namespace Patchwork.Fetch

/-- What a name may start with: a letter, a digit or `_`. -/
def startsRevision (c : Char) : Bool := c.isAlphanum || c = '_'

def continuesRevision (c : Char) : Bool :=
  startsRevision c || c = '.' || c = '/' || c = '+' || c = '@' || c = '-'

def isRevision (s : String) : Bool :=
  match s.toList with
  | [] => false
  | c :: cs => startsRevision c && cs.all continuesRevision && !Text.occursIn ['.', '.'] (c :: cs)

end Patchwork.Fetch
