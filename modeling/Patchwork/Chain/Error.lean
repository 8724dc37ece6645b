import Patchwork.Stack.Rebase
import Patchwork.Store.Error

/-!
# Failures of a chain

The units of a stage do not depend on each other, so all of their failures are reported together.
-/
namespace Patchwork

inductive UnitError
  | apply (error : ApplyError)
  | regenerate (error : RegenerateError)
  | rebase (error : RebaseError)
  | store (error : StoreError)
  deriving DecidableEq, Repr

namespace UnitError

def message : UnitError → String
  | .apply e => e.message
  | .regenerate e => e.message
  | .rebase e => e.message
  | .store e => e.message

def path? : UnitError → Option TreePath
  | .apply e => some e.path
  | .regenerate e => some e.path
  | .rebase e => some e.path
  | .store _ => none

end UnitError

/-- A unit that failed, by the name of its set or its output file. -/
structure UnitFailure where
  name : String
  error : UnitError
  deriving DecidableEq, Repr

def UnitFailure.message (f : UnitFailure) : String := f.name ++ ": " ++ f.error.message

structure StageError where
  stage : String
  failures : List UnitFailure
  deriving DecidableEq, Repr

namespace StageError

def message (e : StageError) : String :=
  let count := match e.failures.length with
    | 1 => "1 unit"
    | n => toString n ++ " units"
  "stage " ++ e.stage ++ ": " ++ count ++ " failed" ++
    String.join (e.failures.map fun f => "\n  " ++ f.message)

/-- The unit and the file of each failure that a file is to blame for. -/
def conflictingPaths (e : StageError) : List String :=
  e.failures.filterMap fun f => f.error.path?.map fun path => f.name ++ ": " ++ path.display

end StageError

def partitionResults {β : Type} : List (String × Except UnitError β) → List β × List UnitFailure
  | [] => ([], [])
  | (name, result) :: rest =>
    let (values, failures) := partitionResults rest
    match result with
    | .ok value => (value :: values, failures)
    | .error e => (values, ⟨name, e⟩ :: failures)

end Patchwork
