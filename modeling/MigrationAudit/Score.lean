import MigrationAudit.Issue

namespace MigrationAudit

/-- How many issues there are of each severity. -/
structure Tally where
  critical : Nat
  warning : Nat
  info : Nat
  deriving DecidableEq, Repr

namespace Tally

def ofIssues (issues : List Issue) : Tally where
  critical := issues.countP (·.severity = .critical)
  warning := issues.countP (·.severity = .warning)
  info := issues.countP (·.severity = .info)

/-- What the issues take off the score, in the arithmetic of 64-bit signed words, which wraps
around. -/
def penalty (t : Tally) : Int64 :=
  25 * Int64.ofNat t.critical + 10 * Int64.ofNat t.warning + 2 * Int64.ofNat t.info

/-- A hundred less the penalty, held between 0 and 100. -/
def score (t : Tally) : Nat := min (100 - t.penalty).toInt.toNat 100

end Tally

/-- The rating of a score. -/
inductive Band where
  | good
  | fair
  | poor
  deriving DecidableEq, Repr

namespace Band

def name : Band → String
  | good => "good"
  | fair => "fair"
  | poor => "poor"

def ofScore (score : Nat) : Band :=
  if 80 ≤ score then good else if 60 ≤ score then fair else poor

end Band

/-- The issues that a view shows, in their order. -/
def View.select (v : View) (issues : List Issue) : List Issue :=
  issues.filter fun i => v.admits i.severity

end MigrationAudit
