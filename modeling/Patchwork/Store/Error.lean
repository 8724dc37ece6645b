import Patchwork.Disk.Fault
import Patchwork.Disk.Path

/-!
# What goes wrong with stored trees and patches
-/
namespace Patchwork

inductive StoreError
  | io (path : DiskPath) (fault : DiskFault)
  | walk (path : DiskPath) (fault : DiskFault)
  | invalidPath (invalid : TreePath.Invalid)
  | notAPatchFile (path : DiskPath)
  | missingSeriesEntry (series : DiskPath) (line : Nat) (entry : String)
  | unlisted (path : DiskPath)
  | duplicateTarget (target : TreePath)
  deriving DecidableEq, Repr

def StoreError.message : StoreError → String
  | .io path fault => path.text ++ ": " ++ fault.message
  | .walk path fault =>
    "failed to walk directory: IO error for operation on " ++ path.text ++ ": " ++ fault.message
  | .invalidPath invalid => invalid.message
  | .notAPatchFile path => path.text ++ ": not a .patch file"
  | .missingSeriesEntry series line entry =>
    series.text ++ ": line " ++ toString line ++ ": series entry " ++ Text.quoted entry ++
      " has no patch file"
  | .unlisted path => path.text ++ ": patch file is not listed in the series file"
  | .duplicateTarget target => "more than one patch targets " ++ target.display

end Patchwork
