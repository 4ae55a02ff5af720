import MigrationAudit.Score
import Mathlib.Algebra.Group.Nat.Defs

namespace MigrationAudit.Tally

/-- What the issues take off the score, as a number that is not held in a word. -/
def weight (t : Tally) : Nat := 25 * t.critical + 10 * t.warning + 2 * t.info

theorem penalty_eq (t : Tally) : t.penalty = Int64.ofNat t.weight := by
  rw [weight, Int64.ofNat_add, Int64.ofNat_add, Int64.ofNat_mul, Int64.ofNat_mul, Int64.ofNat_mul]
  rfl

/-- As long as the penalty fits in a word the score is a plain difference, cut off at zero. -/
theorem score_eq {t : Tally} (h : t.weight < 2 ^ 63) : t.score = 100 - t.weight := by
  have hpenalty : t.penalty.toInt = t.weight := by
    rw [penalty_eq, Int64.toInt_ofNat_of_lt h]
  have hhundred : (100 : Int64).toInt = 100 := by decide
  have hdifference : (100 - t.penalty).toInt = 100 - (t.weight : Int) := by
    rw [Int64.toInt_sub, hpenalty, hhundred]
    apply Int.bmod_eq_of_le <;> omega
  rw [score, hdifference]
  omega

end MigrationAudit.Tally
