namespace MigrationAudit.Text

/-- The number that a non-empty run of ASCII digits denotes, most significant digit first. -/
def natural? (digits : List Char) : Option Nat :=
  if digits ≠ [] ∧ digits.all Char.isDigit then
    some (digits.foldl (fun n c => 10 * n + (c.toNat - '0'.toNat)) 0)
  else none

end MigrationAudit.Text
