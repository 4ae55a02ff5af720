import MigrationAudit.Rule

namespace MigrationAudit

/-- A finding in a file, or about the project as a whole. -/
structure Issue where
  id : String
  severity : Severity
  title : String
  description : String
  message : String
  file : String
  occurrences : Nat
  deriving DecidableEq, Repr

namespace Issue

/-- What stands in place of a file name when an issue is about the project. -/
def projectName : String := "Project Structure"

def isProjectLevel (i : Issue) : Bool := i.file = projectName

/-- The issue that a rule raises in a file in which it was found. -/
def ofMatches? (file text : String) (r : Rule) (found : List Match) : Logged (Option Issue) := do
  let issue := fun message =>
    (⟨r.id, r.severity, r.title, r.description, message, file, found.length⟩ : Issue)
  match r.advice with
  | .fixed message => return some (issue message)
  | .conditional judge =>
    match ← judge text found with
    | .ok (some message) =>
      if message ≠ "" then return some (issue message)
      else do
        Logged.tell (.declined r.id file)
        return none
    | .ok none => do
      Logged.tell (.declined r.id file)
      return none
    | .error e => do
      Logged.tell (.undecided r.id file e)
      return none

/-- The issues of one file, in the order of the rules. -/
def ofText (rules : List Rule) (file text : String) : Logged (List Issue) := do
  let raised ← Logged.each (findRules rules text) fun (r, found) => ofMatches? file text r found
  return raised.filterMap fun i => i

/-- The issues of each file in turn, then those about the project. -/
def collect (perFile : List (List Issue)) (project : List Issue) : List Issue :=
  perFile.flatten ++ project

end Issue

end MigrationAudit
