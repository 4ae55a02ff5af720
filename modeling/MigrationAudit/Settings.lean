import MigrationAudit.FileTree
import MigrationAudit.Analysis
import MigrationAudit.Config.Yaml.Document

namespace MigrationAudit

/-- How a report is written. -/
inductive OutputMode where
  | human
  | json
  deriving DecidableEq, Repr

/-- Only `json` asks for JSON; blanks around it and ASCII case do not count. -/
def OutputMode.parse (s : String) : OutputMode :=
  if Text.lower (Text.trim s) = "json" then .json else .human

/-- What the command line sets. -/
structure Overrides where
  root : Option Path
  output : Option String
  view : Option String
  failOn : Option String
  deriving DecidableEq, Repr

/-- The settings of a scan. Without `failOn` no issue makes it fail. -/
structure Settings where
  root : Path
  configPath : Option Path
  output : OutputMode
  view : View
  failOn : Option Severity
  exclude : List String
  deriving DecidableEq, Repr

namespace Settings

/-- The settings files that a directory may hold, in the order in which they are tried. -/
def configNames : List (String × (String → Except ConfigFault Preferences)) :=
  [("droidmig.toml", Toml.parse), ("droidmig.yaml", Yaml.parse), ("droidmig.yml", Yaml.parse)]

/-- What marks the root of a project. -/
def rootMarks : List String := configNames.map (·.1) ++ [".git"]

def isRoot (tree : FileTree) (p : Path) : Bool :=
  rootMarks.any fun name => tree.holds (p.join ⟨name⟩)

/-- The nearest marked directory at or above `start`, or `start` itself if there is none. -/
def detectRoot (tree : FileTree) (start : Path) : Path :=
  ((start :: start.ancestors).find? (isRoot tree)).getD start

/-- The first settings file of a directory. The others do not count, even if it cannot be used. -/
def load? (tree : FileTree) (root : Path) : Except Failure (Option (Path × Preferences)) :=
  match configNames.find? fun (name, _) => tree.holds (root.join ⟨name⟩) with
  | none => .ok none
  | some (name, parse) =>
    let path := root.join ⟨name⟩
    match tree.readText path with
    | .error e => .error (.unreadable path.text e)
    | .ok text =>
      match parse text with
      | .error fault => .error (.badConfig path.text fault.message)
      | .ok preferences => .ok (some (path, preferences))

/-- The command line goes before the settings file, and that before the defaults. -/
def resolve (tree : FileTree) (o : Overrides) : Logged (Except Failure Settings) :=
  let root := detectRoot tree (o.root.getD ⟨"."⟩)
  match load? tree root with
  | .error e => return .error e
  | .ok config => do
    let preferences := (config.map (·.2)).getD .empty
    let view ← match o.view <|> preferences.view with
      | some name => View.parse name
      | none => pure .all
    return .ok {
      root
      configPath := config.map (·.1)
      output := ((o.output <|> preferences.output).map OutputMode.parse).getD .human
      view
      failOn := (o.failOn <|> preferences.failOn).bind Severity.parse?
      exclude := preferences.exclude }

end Settings

end MigrationAudit
