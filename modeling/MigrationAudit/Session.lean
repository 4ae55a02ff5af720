import MigrationAudit.Analysis

namespace MigrationAudit

/-- The latest analysis of a client that scans repeatedly. -/
structure Session where
  current : Option Analysis

namespace Session

inductive Step where
  | scan (files : List InputFile)
  | select (view : String)
  | report (view : String)
  | current

/-- What a step shows. -/
inductive Answer where
  | analysis (report : Option (Analysis × Report))
  | issues (selected : List Issue)
  | state (current : Option Analysis)

def new : Session := ⟨none⟩

/-- Analyzes the files with the built-in rules; no files at all leave the session as it is. -/
def scan (s : Session) (files : List InputFile) : Logged Session := do
  match ← Analysis.ofFiles? Catalog.rules files with
  | some a => return ⟨some a⟩
  | none => return s

/-- The current issues in the view of that name. -/
def select (s : Session) (view : String) : Logged (List Issue) :=
  match s.current with
  | some a => do return (← View.parse view).select a.issues
  | none => return []

def step (s : Session) : Step → Logged (Session × Answer)
  | .scan files => do
    let s ← s.scan files
    return (s, .analysis (s.current.map fun a => (a, a.report .all)))
  | .select view => do return (s, .issues (← s.select view))
  | .report view => do
    let view ← View.parse view
    return (s, .analysis (s.current.map fun a => (a, a.report view)))
  | .current => return (s, .state s.current)

/-- Takes the steps in turn. -/
def run (s : Session) : List Step → Logged (Session × List Answer)
  | [] => return (s, [])
  | step :: rest => do
    let (s, answer) ← s.step step
    let (s, answers) ← s.run rest
    return (s, answer :: answers)

end Session

end MigrationAudit
