import Patchwork.Command.Run

/-!
# The program

A call works on the working directory and what lies below it. The directory is read before the call,
and what the call has changed is written afterwards.
-/
namespace Patchwork.Program

/-- Reads the entries of a directory onto a disk. -/
partial def readEntries (directory : IO.FS.DirEntry) (l : Location) (d : Disk) : IO Disk := do
  let mut d := d
  for entry in ← directory.path.readDir do
    if let some name := FileName.ofChars? entry.fileName.toList then
      let l := l ++ [name]
      match (← entry.path.metadata).type with
      | .dir =>
        if let .ok made := d.putAt l .directory then
          d ← readEntries entry l made
      | .file =>
        if let .ok made := d.putAt l (.file (← IO.FS.readBinFile entry.path)) then
          d := made
      | _ => pure ()
  return d

/-- Writes what is new or different in a disk, after dropping what is gone. -/
def writeChanges (before after : Disk) : IO Unit := do
  for (l, node) in before.nodes.toList.reverse do
    match node, after.node? l with
    | .directory, some .directory => pure ()
    | .directory, _ => IO.FS.removeDir l.text
    | .file _, some (.file _) => pure ()
    | .file _, _ => IO.FS.removeFile l.text
  for (l, node) in after.nodes.toList do
    if before.node? l ≠ some node then
      match node with
      | .directory => IO.FS.createDir l.text
      | .file content => IO.FS.writeBinFile l.text content

def usage : String :=
  "Maintain a fork as ordered patch sets against an upstream source tree\n\n" ++
  "Usage: forkpatch [OPTIONS] <COMMAND>\n\n" ++
  "Commands: apply, regenerate, rebase, check, help\n" ++
  "Options: -c, --config <FILE>; -v, --verbose; -h, --help; -V, --version"

/-- What is told about a command line that is no call, and the exit code. -/
def explain : ArgumentError → String × UInt32
  | .displayHelp => (usage, 0)
  | .displayVersion => ("forkpatch 0.1.0", 0)
  | .displayHelpForNothing => (usage, 2)
  | .missingCommand => ("error: a subcommand is required\n\n" ++ usage, 2)
  | .unknownCommand => ("error: unrecognized subcommand\n\n" ++ usage, 2)
  | .unknownArgument => ("error: unexpected argument found\n\n" ++ usage, 2)
  | .missingRequired => ("error: a required argument was not provided\n\n" ++ usage, 2)
  | .repeatedSwitch => ("error: an argument cannot be used multiple times\n\n" ++ usage, 2)
  | .invalidValue => ("error: an argument lacks a valid value\n\n" ++ usage, 2)
  | .needlessValue => ("error: unexpected value for an argument\n\n" ++ usage, 2)

def carryOut (i : Invocation) : IO UInt32 := do
  let before ← readEntries ⟨← IO.currentDir, "."⟩ [] .empty
  let (result, after) := i.run Fetch.Source.unreachable before
  writeChanges before after
  match result with
  | .ok _ => return 0
  | .error e =>
    IO.eprintln ("Error: " ++ e.message)
    if let some cause := e.causeMessage? then IO.eprintln ("Caused by: " ++ cause)
    return 1

end Patchwork.Program

def main (arguments : List String) : IO UInt32 := do
  match Patchwork.Invocation.ofArguments arguments with
  | .ok i => Patchwork.Program.carryOut i
  | .error e =>
    let (text, code) := Patchwork.Program.explain e
    if code = 0 then IO.println text else IO.eprintln text
    return code
