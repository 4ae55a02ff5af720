namespace MigrationAudit

/-- Why the content of a file cannot be had. -/
inductive ReadError where
  | missing
  | isDirectory
  | inputOutput
  | notText
  deriving DecidableEq, Repr

def ReadError.message : ReadError → String
  | missing => "No such file or directory (os error 2)"
  | isDirectory => "Is a directory (os error 21)"
  | inputOutput => "Input/output error (os error 5)"
  | notText => "stream did not contain valid UTF-8"

/-- What is wrong with a glob. -/
inductive GlobFault where
  | starRun
  | strayRecursion
  | badClass
  deriving DecidableEq, Repr

def GlobFault.message : GlobFault → String
  | starRun => "wildcards are either regular `*` or recursive `**`"
  | strayRecursion => "recursive wildcards must form a single path component"
  | badClass => "invalid range pattern"

/-- A fault and the character at which it was seen. -/
structure GlobError where
  position : Nat
  fault : GlobFault
  deriving DecidableEq, Repr

def GlobError.message (e : GlobError) : String :=
  s!"Pattern syntax error near position {e.position}: {e.fault.message}"

/-- Why a scan ends before there is anything to report. -/
inductive Failure where
  | notFound (path : String)
  | unreadable (path : String) (error : ReadError)
  | badGlob (glob : String) (error : GlobError)
  | badConfig (path reason : String)
  deriving DecidableEq, Repr

namespace Failure

def message : Failure → String
  | notFound path => s!"path not found: {path}"
  | unreadable path error => s!"failed to read {path}: {error.message}"
  | badGlob glob error => s!"invalid glob pattern '{glob}': {error.message}"
  | badConfig path reason => s!"failed to parse {path}: {reason}"

def cause? : Failure → Option String
  | unreadable _ error => some error.message
  | badGlob _ error => some error.message
  | notFound _ | badConfig _ _ => none

/-- The message, then the message of what caused it. -/
def chain (f : Failure) : String :=
  match f.cause? with
  | some cause => s!"{f.message}: {cause}"
  | none => f.message

end Failure

/-- Why a rule could not decide about a file. -/
inductive JudgementError where
  | missingGroup (group : Nat) (found : String)
  | notAVersion (value : String)
  deriving DecidableEq, Repr

def JudgementError.message : JudgementError → String
  | missingGroup group found => s!"capture group {group} missing in match '{found}'"
  | notAVersion value => s!"cannot parse '{value}' as a version number"

end MigrationAudit
