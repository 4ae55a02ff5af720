import MigrationAudit.Shape
import MigrationAudit.Score
import MigrationAudit.Catalog
import MigrationAudit.Text.Utf8

namespace MigrationAudit

/-- What one pass over a set of files found. -/
structure Analysis where
  shape : Shape
  issues : List Issue
  analyzedFiles : List String

/-- The issues of one file; none if it cannot be read as text. -/
def InputFile.issues (rules : List Rule) (f : InputFile) : Logged (List Issue) :=
  match f.content with
  | none => do
    Logged.tell (.unreadable f.path)
    return []
  | some bytes =>
    match Text.decode? bytes with
    | none => do
      Logged.tell (.notText f.path)
      return []
    | some text => Issue.ofText rules f.name text

/-- The files that are analyzed; the others are only mentioned. -/
def InputFile.accepted (files : List InputFile) : Logged (List InputFile) where
  value := files.filter isAccepted
  events := (files.filter fun f => !f.isAccepted).map fun f => .unsupportedName f.path

/-- What a report tells. Its issues are those of the view; all numbers are about the full list. -/
structure Report where
  issueCount : Nat
  analyzedFileCount : Nat
  score : Nat
  band : Band
  tally : Tally
  view : View
  issues : List Issue
  deriving DecidableEq, Repr

namespace Analysis

def tally (a : Analysis) : Tally := .ofIssues a.issues

def score (a : Analysis) : Nat := a.tally.score

def report (a : Analysis) (view : View) : Report where
  issueCount := a.issues.length
  analyzedFileCount := a.analyzedFiles.length
  score := a.score
  band := .ofScore a.score
  tally := a.tally
  view := view
  issues := view.select a.issues

/-- Analyzes a set of files; there is nothing to say about none at all. -/
def ofFiles? (rules : List Rule) (files : List InputFile) : Logged (Option Analysis) := do
  if files.isEmpty then
    Logged.tell .noInput
    return none
  let accepted ← InputFile.accepted files
  let perFile ← Logged.each accepted (InputFile.issues rules)
  let shape := Shape.ofFiles accepted
  let issues := Issue.collect perFile shape.issues
  Logged.tell (.analyzed accepted.length files.length issues.length)
  return some ⟨shape, issues, accepted.map InputFile.name⟩

end Analysis

/-- The view with the given name; any other name shows everything. -/
def View.parse (name : String) : Logged View :=
  if name = View.all.name then return .all
  else match Severity.ofName? name with
    | some s => return .only s
    | none => do
      Logged.tell (.unknownView name)
      return .all

end MigrationAudit
