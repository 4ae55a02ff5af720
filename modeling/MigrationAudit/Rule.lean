import MigrationAudit.Pattern.Parse
import MigrationAudit.Severity
import MigrationAudit.Event

namespace MigrationAudit

/-- Decides about a file from its text and the matches in it: the message to give, none to stay
silent, or why there is no decision. -/
abbrev Judge := String → List Match → Logged (Except JudgementError (Option String))

/-- What a rule recommends once its pattern was found. -/
inductive Advice where
  | fixed (message : String)
  | conditional (judge : Judge)

def Advice.message? : Advice → Option String
  | fixed message => some message
  | conditional _ => none

def Advice.isConditional : Advice → Bool
  | fixed _ => false
  | conditional _ => true

/-- One migration concern. -/
structure Rule where
  id : String
  regex : Regex
  severity : Severity
  title : String
  description : String
  advice : Advice

def Rule.findAll (r : Rule) (text : String) : List Match := r.regex.findAll text

/-- The rules that were found in a text, each with its matches. -/
def findRules (rules : List Rule) (text : String) : List (Rule × List Match) :=
  (rules.map fun r => (r, r.findAll text)).filter fun (_, found) => !found.isEmpty

end MigrationAudit
