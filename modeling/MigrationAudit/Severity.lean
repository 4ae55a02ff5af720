import MigrationAudit.Text.Blank

namespace MigrationAudit

inductive Severity where
  | critical
  | warning
  | info
  deriving DecidableEq, Repr

namespace Severity

def name : Severity → String
  | critical => "critical"
  | warning => "warning"
  | info => "info"

/-- The most severe has rank zero. -/
def rank : Severity → Nat
  | critical => 0
  | warning => 1
  | info => 2

/-- Whether `s` is as severe as `threshold` or more. -/
def atLeast (s threshold : Severity) : Bool := s.rank ≤ threshold.rank

/-- Exactly the three names. -/
def ofName? : String → Option Severity
  | "critical" => some critical
  | "warning" => some warning
  | "info" => some info
  | _ => none

/-- A severity as people write it: blanks around it and ASCII case do not count, and `warn` will
do. -/
def parse? (s : String) : Option Severity :=
  let word := Text.lower (Text.trim s)
  if word = "warn" then some warning else ofName? word

@[simp] theorem ofName?_name (s : Severity) : ofName? s.name = some s := by cases s <;> rfl

end Severity

/-- The severities that a report shows. -/
inductive View where
  | all
  | only (severity : Severity)
  deriving DecidableEq, Repr

namespace View

def name : View → String
  | all => "all"
  | only s => s.name

def admits : View → Severity → Bool
  | all, _ => true
  | only s, t => s = t

end View

end MigrationAudit
