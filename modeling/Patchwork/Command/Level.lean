/-!
# One level of a command line

The arguments of a program and those of a command follow the same rules: switches by a long name or
a letter, letters in clusters, values behind `=` or in the next argument. A value is looked at only
when the next switch is met or the level ends, so a problem with it gives way to one that is met
before.
-/
namespace Patchwork

/-- Why a command line is no call of the program. The first three ask for something else. -/
inductive ArgumentError
  | displayHelp
  | displayVersion
  | displayHelpForNothing
  | missingCommand
  | unknownCommand
  | unknownArgument
  | missingRequired
  | repeatedSwitch
  | invalidValue
  | needlessValue
  deriving DecidableEq, Repr

namespace Command

inductive SwitchKind
  | help
  | version
  | counted
  /-- A value follows, which may be empty or not. -/
  | valued (mayBeEmpty : Bool)
  deriving DecidableEq, Repr

structure Switch where
  long : String
  letter : Option Char
  kind : SwitchKind
  deriving DecidableEq, Repr

structure Level where
  switches : List Switch
  commands : List String

/-- What has been given so far: the values of switches, how often each counted one stood there, and
the switch whose value is still to be looked at, if it has been met. -/
structure Given where
  values : List (String × String) := []
  counted : List String := []
  pending : Option (Switch × Option String) := none
  deriving DecidableEq, Repr

namespace Given

def value? (g : Given) (name : String) : Option String := (g.values.find? (·.1 = name)).map (·.2)

def count (g : Given) (name : String) : Nat := g.counted.count name

def isNothing (g : Given) : Bool := g.values.isEmpty && g.counted.isEmpty

def isAwaiting (g : Given) : Bool :=
  match g.pending with
  | some (_, none) => true
  | _ => false

def store (g : Given) (s : Switch) (value : String) : Except ArgumentError Given :=
  if (g.value? s.long).isSome then .error .repeatedSwitch
  else if value.isEmpty && s.kind ≠ .valued true then .error .invalidValue
  else .ok { g with values := g.values ++ [(s.long, value)] }

def settle (g : Given) : Except ArgumentError Given :=
  match g.pending with
  | none => .ok g
  | some (_, none) => .error .invalidValue
  | some (s, some value) => { g with pending := none }.store s value

def flag (g : Given) (s : Switch) : Except ArgumentError Given := do
  let g ← g.settle
  match s.kind with
  | .help => .error .displayHelp
  | .version => .error .displayVersion
  | _ => .ok { g with counted := s.long :: g.counted }

/-- Takes note of a switch with a value that stands beside it or is to follow. -/
def valued (g : Given) (s : Switch) (value : Option String) : Except ArgumentError Given := do
  let g ← g.settle
  match value with
  | some value => g.store s value
  | none => .ok { g with pending := some (s, none) }

end Given

def Switch.takesValue (s : Switch) : Bool :=
  match s.kind with
  | .valued _ => true
  | _ => false

namespace Level

/-- Reads an argument that starts with two dashes, which are left out here. -/
def readLong (l : Level) (g : Given) (cs : List Char) : Except ArgumentError Given :=
  let name := String.ofList (cs.takeWhile (· ≠ '='))
  let value := match cs.dropWhile (· ≠ '=') with
    | [] => none
    | _ :: value => some (String.ofList value)
  match l.switches.find? (·.long = name) with
  | none => .error .unknownArgument
  | some s =>
    if s.takesValue then g.valued s value
    else if value.isSome then .error .needlessValue
    else g.flag s

/-- Reads a cluster of letters. The rest of it is the value of a letter that takes one. -/
def readLetters (l : Level) (g : Given) : List Char → Except ArgumentError Given
  | [] => .ok g
  | c :: cs =>
    match l.switches.find? (·.letter = some c) with
    | none => .error .unknownArgument
    | some s =>
      if s.takesValue then
        match cs with
        | [] => g.valued s none
        | '=' :: value => g.valued s (some (String.ofList value))
        | value => g.valued s (some (String.ofList value))
      else do l.readLetters (← g.flag s) cs

def readArgument (l : Level) (g : Given) (argument : String) : Except ArgumentError Given :=
  match argument.toList with
  | '-' :: '-' :: cs => l.readLong g cs
  | '-' :: c :: cs => l.readLetters g (c :: cs)
  | _ =>
    match g.pending with
    | some (s, none) => .ok { g with pending := some (s, some argument) }
    | _ => .error (if l.commands.isEmpty then .unknownArgument else .unknownCommand)

/-- Reads arguments up to the name of a command, which is returned with what follows it. Behind `--`
stands nothing that is understood. -/
def read (l : Level) (g : Given) :
    List String → Except ArgumentError (Given × Option (String × List String))
  | [] => .ok (g, none)
  | argument :: rest =>
    if !g.isAwaiting && l.commands.contains argument then .ok (g, some (argument, rest))
    else if argument = "--" then
      match rest with
      | [] => .ok (g, none)
      | next :: _ =>
        .error (if l.commands.isEmpty || l.commands.contains next then .unknownArgument
          else .unknownCommand)
    else do l.read (← l.readArgument g argument) rest

end Level

end Command

end Patchwork
