import Patchwork.Fetch.Revision
import Patchwork.Store.Error

/-!
# Why a fetch fails

A fetch that failed for a passing reason may be tried again. That a revision is unknown to the other
side is no such reason; it is told by the exit code and the words of the failed command.
-/
namespace Patchwork

inductive FetchError
  | gitNotFound
  | commandFailed (command stderr : String) (exitCode : Int)
  | cancelled
  | invalidRevision (revision : String)
  | store (error : StoreError)
  | io (text : String)
  deriving DecidableEq, Repr

namespace FetchError

def message : FetchError → String
  | .gitNotFound => "git is not installed or not in PATH"
  | .commandFailed command stderr exitCode =>
    "`" ++ command ++ "` failed (exit code " ++ toString exitCode ++ "): " ++ stderr
  | .cancelled => "fetch was cancelled"
  | .invalidRevision revision => "invalid revision " ++ Text.quoted revision
  | .store e => "failed to read upstream tree: " ++ e.message
  | .io text => "IO error: " ++ text

/-- The exit code of a command that could not be carried out. -/
def fatalExitCode : Int := 128

def unknownRevisionTexts : List String :=
  ["couldn't find remote ref", "not our ref", "unknown revision"]

/-- Lower case, as far as the result is an ASCII letter: that of the Kelvin sign is `k`. -/
def lowered (c : Char) : Char := if c = '\u212a' then 'k' else c.toLower

def tellsUnknownRevision (stderr : String) : Bool :=
  unknownRevisionTexts.any fun text => Text.occursIn text.toList (stderr.toList.map lowered)

def isTransient : FetchError → Bool
  | .commandFailed _ stderr exitCode => !(exitCode = fatalExitCode && tellsUnknownRevision stderr)
  | .io _ => true
  | _ => false

end FetchError

end Patchwork
