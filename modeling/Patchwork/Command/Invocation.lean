import Patchwork.Command.Level
import Patchwork.Disk.Path

/-!
# Calls of the program

What a command line asks for. The switches for the configuration file and for more messages may
stand in front of the command or behind it, and those behind it win.
-/
namespace Patchwork

/-- What the program is asked to do. A directory stands in for fetching a revision. -/
inductive Command
  | apply (directory : Option DiskPath)
  | regenerate (directory : Option DiskPath)
  | rebase (revision : String) (directories : Option (DiskPath × DiskPath))
  | check (directory : Option DiskPath)
  deriving DecidableEq, Repr

structure Invocation where
  config : DiskPath
  verbosity : Nat
  command : Command
  deriving DecidableEq, Repr

namespace Command

def configSwitch : Switch := ⟨"config", some 'c', .valued false⟩

def verboseSwitch : Switch := ⟨"verbose", some 'v', .counted⟩

def helpSwitch : Switch := ⟨"help", some 'h', .help⟩

def versionSwitch : Switch := ⟨"version", some 'V', .version⟩

/-- The switches that are understood everywhere. -/
def commonSwitches : List Switch := [configSwitch, verboseSwitch, helpSwitch]

def commandNames : List String := ["apply", "regenerate", "rebase", "check"]

def helpCommand : String := "help"

def topLevel : Level := ⟨versionSwitch :: commonSwitches, helpCommand :: commandNames⟩

/-- The level of a command with switches of its own. -/
def levelWith (switches : List Switch) : Level := ⟨switches ++ commonSwitches, []⟩

def directoryLevel : Level := levelWith [⟨"upstream-dir", none, .valued false⟩]

def rebaseLevel : Level :=
  levelWith [⟨"to", none, .valued true⟩, ⟨"old-dir", none, .valued false⟩,
    ⟨"new-dir", none, .valued false⟩]

def readAll (l : Level) (arguments : List String) : Except ArgumentError Given := do
  (← l.read {} arguments).1.settle

def readDirectory (arguments : List String) : Except ArgumentError (Given × Option DiskPath) := do
  let g ← readAll directoryLevel arguments
  return (g, (g.value? "upstream-dir").map DiskPath.mk)

/-- Reads the arguments of a rebase. The two directories are given both or not at all. -/
def readRebase (arguments : List String) : Except ArgumentError (Given × Command) := do
  let g ← readAll rebaseLevel arguments
  match g.value? "to", g.value? "old-dir", g.value? "new-dir" with
  | some revision, some old, some new => return (g, .rebase revision (some (⟨old⟩, ⟨new⟩)))
  | some revision, none, none => return (g, .rebase revision none)
  | _, _, _ => .error .missingRequired

def ofArguments (name : String) (arguments : List String) :
    Except ArgumentError (Given × Command) := do
  match name with
  | "apply" => return (← readDirectory arguments).map id .apply
  | "regenerate" => return (← readDirectory arguments).map id .regenerate
  | "check" => return (← readDirectory arguments).map id .check
  | "rebase" => readRebase arguments
  | _ =>
    match arguments with
    | [] => .error .displayHelp
    | [topic] => .error (if topLevel.commands.contains topic then .displayHelp else .unknownCommand)
    | _ => .error .unknownCommand

end Command

namespace Invocation

def defaultConfig : DiskPath := ⟨"forkpatch.json"⟩

def maxVerbosity : Nat := 255

def ofArguments (arguments : List String) : Except ArgumentError Invocation := do
  let (outer, rest) ← Command.topLevel.read {} arguments
  match rest with
  | none =>
    let outer ← outer.settle
    .error (if outer.isNothing then .displayHelpForNothing else .missingCommand)
  | some (name, rest) =>
    let (inner, command) ← Command.ofArguments name rest
    let outer ← outer.settle
    let config := (inner.value? "config").or (outer.value? "config")
    let count := if inner.count "verbose" = 0 then outer.count "verbose" else inner.count "verbose"
    return ⟨(config.map DiskPath.mk).getD defaultConfig, min count maxVerbosity, command⟩

def logFilter (i : Invocation) : String :=
  match i.verbosity with
  | 0 => "info"
  | 1 => "debug"
  | _ => "trace"

end Invocation

end Patchwork
