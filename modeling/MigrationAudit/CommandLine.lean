import MigrationAudit.Settings

namespace MigrationAudit

/-- What a command does. -/
inductive Action where
  | version
  | rules (output : Option String)
  | scan (paths : List Path) (overrides : Overrides)
  deriving DecidableEq, Repr

structure Command where
  verbose : Bool
  action : Action
  deriving DecidableEq, Repr

/-- Why the arguments are no command. The first two are what the user asked for. -/
inductive ArgumentError where
  | helpWanted
  | versionWanted
  | nothingGiven
  | missingCommand
  | unknownCommand
  | unknownArgument
  | badValue
  | repeated
  | unwantedValue
  deriving DecidableEq, Repr

def ArgumentError.exitCode : ArgumentError → Nat
  | helpWanted | versionWanted => 0
  | _ => 2

namespace CommandLine

inductive Verb where
  | version
  | rules
  | scan
  deriving DecidableEq, Repr

def Verb.ofName? : String → Option Verb
  | "version" => some version
  | "rules" => some rules
  | "scan" => some scan
  | _ => none

/-- An option that takes a value. -/
inductive Key where
  | root
  | output
  | filter
  | failOn
  deriving DecidableEq, Repr

def Key.name : Key → String
  | root => "root"
  | output => "output"
  | filter => "filter"
  | failOn => "fail-on"

def Verb.keys : Verb → List Key
  | version => []
  | rules => [.output]
  | scan => [.root, .output, .filter, .failOn]

/-- What was met last and is not yet settled. -/
inductive Pending where
  | nothing
  | key (key : Key)
  | value (key : Key) (value : String)
  | paths (paths : List String)
  deriving DecidableEq, Repr

/-- The arguments read so far, those before a command's name or those after it. -/
structure Given where
  verbose : Bool
  values : List (Key × String)
  paths : List String
  pending : Pending
  deriving DecidableEq, Repr

namespace Given

def start : Given := ⟨false, [], [], .nothing⟩

/-- An option may be given once, and a path may not be empty. -/
def put (g : Given) (key : Key) (value : String) : Except ArgumentError Given :=
  if (g.values.lookup key).isSome then .error .repeated
  else if key = .root ∧ value = "" then .error .badValue
  else .ok { g with values := (key, value) :: g.values }

/-- Accepts what is pending. -/
def settle (g : Given) : Except ArgumentError Given :=
  let rest := { g with pending := .nothing }
  match g.pending with
  | .nothing => .ok rest
  | .key _ => .error .badValue
  | .value key value => rest.put key value
  | .paths paths =>
    if paths.contains "" then .error .badValue else .ok { rest with paths := g.paths ++ paths }

/-- A switch, by the letter it has for short. -/
def switch (verb : Option Verb) (g : Given) (letter : Char) : Except ArgumentError Given :=
  match letter, verb with
  | 'v', _ => do
    let g ← g.settle
    if g.verbose then .error .repeated else .ok { g with verbose := true }
  | 'h', _ => do
    let _ ← g.settle
    .error .helpWanted
  | 'V', none => do
    let _ ← g.settle
    .error .versionWanted
  | _, _ => .error .unknownArgument

def switchLetter? (verb : Option Verb) : String → Option Char
  | "verbose" => some 'v'
  | "help" => some 'h'
  | "version" => if verb.isNone then some 'V' else none
  | _ => none

/-- An argument that begins with two dashes. -/
def long (verb : Option Verb) (g : Given) (name : String) (value : Option String) :
    Except ArgumentError Given :=
  match switchLetter? verb name, value with
  | some letter, none => g.switch verb letter
  | some _, some _ => .error .unwantedValue
  | none, _ =>
    match ((verb.map Verb.keys).getD []).find? (·.name = name) with
    | none => .error .unknownArgument
    | some key => do
      let g ← g.settle
      match value with
      | some value => g.put key value
      | none => return { g with pending := .key key }

/-- A path, which only a scan has. -/
def positional (verb : Option Verb) (g : Given) (arg : String) : Except ArgumentError Given :=
  match verb with
  | none => .error .unknownCommand
  | some .scan =>
    match g.pending with
    | .paths paths => .ok { g with pending := .paths (paths ++ [arg]) }
    | _ => do return { ← g.settle with pending := .paths [arg] }
  | some _ => .error .unknownArgument

/-- An argument before any double dash that stands alone. -/
def argument (verb : Option Verb) (g : Given) (arg : String) : Except ArgumentError Given :=
  match arg.toList with
  | '-' :: '-' :: text =>
    let name := String.ofList (text.takeWhile (· ≠ '='))
    match text.dropWhile (· ≠ '=') with
    | [] => g.long verb name none
    | _ :: value => g.long verb name (some (String.ofList value))
  | '-' :: letter :: letters => (letter :: letters).foldlM (switch verb) g
  | _ =>
    match g.pending with
    | .key key => .ok { g with pending := .value key arg }
    | _ => g.positional verb arg

/-- The arguments of a command; after a double dash that stands alone all of them are paths. -/
def readAll (verb : Verb) (g : Given) : List String → Except ArgumentError Given
  | [] => g.settle
  | "--" :: rest => do (← rest.foldlM (positional (some verb)) g).settle
  | arg :: rest => do readAll verb (← g.argument (some verb) arg) rest

def command (verb : Verb) (verbose : Bool) (g : Given) : Command where
  verbose := verbose || g.verbose
  action := match verb with
    | .version => .version
    | .rules => .rules (g.values.lookup .output)
    | .scan => .scan (g.paths.map Path.mk) {
        root := (g.values.lookup .root).map Path.mk
        output := g.values.lookup .output
        view := g.values.lookup .filter
        failOn := g.values.lookup .failOn }

end Given

/-- What asking for help leads to: each word has to name a command, and commands have none below
them. -/
def help : List String → ArgumentError
  | [] => .helpWanted
  | [word] => if word = "help" ∨ (Verb.ofName? word).isSome then .helpWanted else .unknownCommand
  | _ => .unknownCommand

/-- Reads arguments up to the name of a command and then those of the command. -/
def readFrom (g : Given) : List String → Except ArgumentError Command
  | [] => do
    let g ← g.settle
    .error (if g.verbose then .missingCommand else .nothingGiven)
  | "help" :: rest => .error (help rest)
  | "--" :: rest =>
    match rest with
    | [] => .error (if g.verbose then .missingCommand else .nothingGiven)
    | arg :: _ =>
      .error
        (if arg = "help" ∨ (Verb.ofName? arg).isSome then .unknownArgument else .unknownCommand)
  | arg :: rest =>
    match Verb.ofName? arg with
    | some verb => do return (← Given.start.readAll verb rest).command verb g.verbose
    | none => do readFrom (← g.argument none arg) rest

end CommandLine

/-- The command that the arguments ask for. -/
def Command.parse (args : List String) : Except ArgumentError Command :=
  CommandLine.readFrom .start args

end MigrationAudit
