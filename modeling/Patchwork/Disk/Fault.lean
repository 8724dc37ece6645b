import Patchwork.Text.Octets

/-!
# What a disk refuses

A fault of the operating system is shown as that words it, with its number.
-/
namespace Patchwork

inductive DiskFault
  | notFound
  | alreadyExists
  | notADirectory
  | isADirectory
  | notEmpty
  | busy
  /-- A directory cannot move into itself, and nothing is renamed to a name with a NUL. -/
  | invalidArgument
  | nameTooLong
  /-- A path with a NUL reaches no disk. -/
  | holdsNul
  /-- A text was asked for; the first broken sequence is known or not. -/
  | notText (fault : Option Text.OctetFault)
  deriving DecidableEq, Repr

def DiskFault.message : DiskFault → String
  | .notFound => "No such file or directory (os error 2)"
  | .alreadyExists => "File exists (os error 17)"
  | .notADirectory => "Not a directory (os error 20)"
  | .isADirectory => "Is a directory (os error 21)"
  | .notEmpty => "Directory not empty (os error 39)"
  | .busy => "Device or resource busy (os error 16)"
  | .invalidArgument => "Invalid argument (os error 22)"
  | .nameTooLong => "File name too long (os error 36)"
  | .holdsNul => "file name contained an unexpected NUL byte"
  | .notText none => "stream did not contain valid UTF-8"
  | .notText (some fault) => fault.message

end Patchwork
