import MigrationAudit.CommandLine
import MigrationAudit.Discovery
import MigrationAudit.Report.Human
import MigrationAudit.Report.Data

namespace MigrationAudit

/-- A line for the operator. -/
inductive Message where
  | note (text : String)
  | failure (failure : Failure)
  | event (event : Event)
  deriving DecidableEq, Repr

namespace Message

def noConfig : Message := note "No droidmig.toml found; using defaults."

def nothingToAnalyze (root : Path) : Message := note s!"No files to analyze under {root.text}."

def noteMark (colour : Bool) : String :=
  if colour then (Style.strong .cyan).apply "note:" else "note:"

def failureMark (colour : Bool) : String :=
  if colour then (Style.strong .red).apply "error:" else "error:"

/-- The least level of the events that are shown. -/
def defaultLevel (verbose : Bool) : Level := if verbose then .debug else .info

/-- The line with its end. Events are left out if there is no level, and those below it if there is
one. -/
def render (colour : Bool) (least : Option Level) : Message → String
  | note text => noteMark colour ++ " " ++ text ++ "\n"
  | failure f => failureMark colour ++ " " ++ f.chain ++ "\n"
  | event e =>
    if least.any fun l => l.rank ≤ e.level.rank then
      String.ofList (List.replicate (5 - e.level.name.length) ' ') ++ e.level.name ++ " " ++
        e.message ++ "\n"
    else ""

def ofEvents (events : List Event) : List Message := events.map event

end Message

/-- What running a command leaves behind. -/
structure Outcome where
  exitCode : Nat
  output : String
  messages : List Message
  deriving DecidableEq, Repr

namespace Outcome

def fail (f : Failure) (messages : List Message) : Outcome := ⟨2, "", messages ++ [.failure f]⟩

end Outcome

def Report.write (r : Report) (colour : Bool) : OutputMode → String
  | .human => r.render colour
  | .json => r.toJson.pretty 0 ++ "\n"

/-- Whether an issue is as severe as the settings allow none to be. -/
def Settings.failsOn (s : Settings) (issues : List Issue) : Bool :=
  s.failOn.any fun threshold => issues.any (·.severity.atLeast threshold)

namespace Program

def versionText : String := "0.1.0"

/-- What asking for the version of the program gives. -/
def versionLine : String := s!"droidmig {versionText}\n"

/-- What is said about where the settings come from. -/
def configMessages (s : Settings) : List Message :=
  match s.configPath, s.output with
  | some p, _ => [.event (.usingConfig p.text)]
  | none, .human => [.noConfig]
  | none, .json => []

def scan (tree : FileTree) (colour : Bool) (paths : List Path) (o : Overrides) : Outcome :=
  let resolved := Settings.resolve tree o
  let messages := Message.ofEvents resolved.events
  match resolved.value with
  | .error f => .fail f messages
  | .ok s =>
    let messages := messages ++ configMessages s
    match Glob.parseAll s.exclude with
    | .error f => .fail f messages
    | .ok excludes =>
      let collected := Discovery.collect tree s.root paths excludes
      let messages := messages ++ Message.ofEvents collected.events
      match collected.value with
      | .error f => .fail f messages
      | .ok files =>
        let analysis := Analysis.ofFiles? Catalog.rules files
        let messages := messages ++ Message.ofEvents analysis.events
        match analysis.value with
        | none => ⟨0, "", messages ++ [.nothingToAnalyze s.root]⟩
        | some a =>
          ⟨if s.failsOn a.issues then 1 else 0, (a.report s.view).write colour s.output, messages⟩

def listRules (colour : Bool) (output : Option String) : Outcome :=
  match (output.map OutputMode.parse).getD .human with
  | .human => ⟨0, Rule.renderAll Catalog.rules colour, []⟩
  | .json => ⟨0, (Rule.allToJson Catalog.rules).pretty 0 ++ "\n", []⟩

def run (tree : FileTree) (colour : Bool) (c : Command) : Outcome :=
  match c.action with
  | .version => ⟨0, versionText ++ "\n", []⟩
  | .rules output => listRules colour output
  | .scan paths o => scan tree colour paths o

/-- What a process leaves: its exit code and what it wrote to the two streams it has. -/
structure Streams where
  exitCode : Nat
  output : String
  errors : String
  deriving DecidableEq, Repr

/-- Runs a command. What the environment wants to see of the events, if it says so, goes before the
switch; it can be none at all. -/
def streams (tree : FileTree) (colour : Bool) (logging : Option (Option Level)) (c : Command) :
    Streams :=
  let outcome := run tree colour c
  let least := logging.getD (some (Message.defaultLevel c.verbose))
  ⟨outcome.exitCode, outcome.output,
    String.join (outcome.messages.map (Message.render colour least))⟩

end Program

end MigrationAudit
