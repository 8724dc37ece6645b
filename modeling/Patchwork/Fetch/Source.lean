import Patchwork.Fetch.Error
import Patchwork.Store.Tree

/-!
# Fetching with retries

A source answers each call for a revision with a snapshot or an error, and the fetch can be
cancelled while a call is under way. Whether it has been cancelled is looked at only before another
attempt.
-/
namespace Patchwork

namespace Fetch

/-- What comes of one call, and whether the fetch is cancelled during it. -/
structure Reply where
  outcome : Except FetchError Snapshot
  cancels : Bool

/-- Where revisions come from. Calls are counted from one, and a call is told whether the fetch has
been cancelled. -/
structure Source where
  place : String
  reply : (call : Nat) → (revision : String) → (cancelled : Bool) → Reply

/-- How often a fetch is tried, and how many milliseconds it waits after the first attempt; after
the `n`-th it waits `n` times as long. -/
structure Policy where
  attempts : Nat
  backoff : Nat
  deriving DecidableEq, Repr

def Policy.default : Policy := ⟨3, 500⟩

structure Report where
  calls : Nat
  outcome : Except FetchError Snapshot
  cancelled : Bool

namespace Source

/-- Makes a call, and up to `left` more after it. -/
def attempt (s : Source) (revision : String) (call : Nat) (cancelled : Bool) (left : Nat) :
    Report :=
  let reply := s.reply call revision cancelled
  let cancelled := cancelled || reply.cancels
  match left, reply.outcome with
  | left + 1, .error e =>
    if !e.isTransient then ⟨call, .error e, cancelled⟩
    else if cancelled then ⟨call, .error .cancelled, cancelled⟩
    else s.attempt revision (call + 1) cancelled left
  | _, outcome => ⟨call, outcome, cancelled⟩

/-- Fetches a revision, at most `attempts` times and at least once. -/
def fetch (s : Source) (revision : String) (attempts : Nat) (cancelled : Bool) : Report :=
  if isRevision revision then s.attempt revision 1 cancelled (attempts - 1)
  else ⟨0, .error (.invalidRevision revision), cancelled⟩

def constant (place : String) (outcome : String → Except FetchError Snapshot) : Source where
  place := place
  reply _ revision cancelled := ⟨if cancelled then .error .cancelled else outcome revision, false⟩

def directory (d : Disk) (root : DiskPath) : Source :=
  constant root.text fun revision =>
    ((Store.loadTree root [] d).mapError .store).map (⟨revision, ·⟩)

/-- A repository that cannot be reached, for want of the program that would fetch from it. -/
def unreachable (repository : String) : Source := constant repository fun _ => .error .gitNotFound

end Source

end Fetch

end Patchwork
