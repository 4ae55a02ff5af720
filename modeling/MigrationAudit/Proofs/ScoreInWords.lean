import MigrationAudit.Proofs.Penalty

namespace MigrationAudit.Tally

theorem toInt_ofNat_eq_iff (n : Nat) : (Int64.ofNat n).toInt = n ↔ n < 2 ^ 63 := by
  constructor
  · intro h
    have hlt := (Int64.ofNat n).toInt_lt
    omega
  · exact Int64.toInt_ofNat_of_lt

theorem toInt_hundred_sub (t : Tally) :
    (100 - t.penalty).toInt = (100 - (t.weight : Int)).bmod (2 ^ 64) := by
  have hhundred : (100 : Int64).toInt = 100 := by decide
  have hpenalty : t.penalty.toInt = (t.weight : Int).bmod (2 ^ 64) := by
    rw [penalty_eq, Int64.toInt_ofNat']
    rfl
  rw [Int64.toInt_sub, hhundred, hpenalty, Int.sub_bmod_bmod]

/-- The difference wraps around, and then it is cut off at both ends. -/
theorem score_eq_bmod (t : Tally) :
    (t.score : Int) = max 0 (min 100 ((100 - (t.weight : Int)).bmod (2 ^ 64))) := by
  rw [score, toInt_hundred_sub]
  omega

/-- Wrapping around does no harm as long as what exceeds a hundred is still taken for a debt. -/
theorem score_eq_iff (t : Tally) :
    t.score = 100 - t.weight ↔ (t.weight - 100) % 2 ^ 64 ≤ 2 ^ 63 := by
  have hscore := t.score_eq_bmod
  rw [Int.bmod_def] at hscore
  split at hscore <;> omega

/-- Every word on the way to the score holds the number that it stands for. -/
structure Exact (t : Tally) : Prop where
  critical : (Int64.ofNat t.critical).toInt = t.critical
  warning : (Int64.ofNat t.warning).toInt = t.warning
  info : (Int64.ofNat t.info).toInt = t.info
  critical_product : (25 * Int64.ofNat t.critical).toInt = 25 * t.critical
  warning_product : (10 * Int64.ofNat t.warning).toInt = 10 * t.warning
  info_product : (2 * Int64.ofNat t.info).toInt = 2 * t.info
  sum : (25 * Int64.ofNat t.critical + 10 * Int64.ofNat t.warning).toInt =
    25 * t.critical + 10 * t.warning
  penalty : t.penalty.toInt = 25 * t.critical + 10 * t.warning + 2 * t.info
  difference : (100 - t.penalty).toInt = 100 - (25 * t.critical + 10 * t.warning + 2 * t.info)

theorem toInt_mul_ofNat {k n : Nat} (h : k * n < 2 ^ 63) :
    (Int64.ofNat k * Int64.ofNat n).toInt = k * n := by
  rw [← Int64.ofNat_mul, Int64.toInt_ofNat_of_lt h, Int.natCast_mul]

theorem exact_iff (t : Tally) : t.Exact ↔ t.weight < 2 ^ 63 := by
  have hweight : (t.weight : Int) = 25 * t.critical + 10 * t.warning + 2 * t.info :=
    by simp [weight]
  constructor
  · intro h
    rw [← toInt_ofNat_eq_iff, ← penalty_eq, h.penalty, hweight]
  · intro h
    have hcritical : 25 * t.critical < 2 ^ 63 := by omega
    have hwarning : 10 * t.warning < 2 ^ 63 := by omega
    have hinfo : 2 * t.info < 2 ^ 63 := by omega
    refine ⟨(toInt_ofNat_eq_iff _).mpr (by omega), (toInt_ofNat_eq_iff _).mpr (by omega),
      (toInt_ofNat_eq_iff _).mpr (by omega), toInt_mul_ofNat hcritical, toInt_mul_ofNat hwarning,
      toInt_mul_ofNat hinfo, ?_, ?_, ?_⟩
    · have hsum : 25 * Int64.ofNat t.critical + 10 * Int64.ofNat t.warning =
          Int64.ofNat (25 * t.critical + 10 * t.warning) := by
        rw [Int64.ofNat_add, Int64.ofNat_mul, Int64.ofNat_mul]
        rfl
      rw [hsum, Int64.toInt_ofNat_of_lt (by omega)]
      omega
    · rw [penalty_eq, Int64.toInt_ofNat_of_lt h, hweight]
    · rw [toInt_hundred_sub, ← hweight]
      apply Int.bmod_eq_of_le <;> omega

def plainScore (t : Tally) : Int := max 0 (100 - 25 * t.critical - 10 * t.warning - 2 * t.info)

theorem plainScore_eq (t : Tally) : t.plainScore = (100 - t.weight : Nat) := by
  unfold plainScore weight
  omega

/-- What the score of a tally is, beside the plain one. -/
structure ScoredInWords (t : Tally) : Prop where
  wrapped : (t.score : Int) =
    max 0 (min 100 ((100 - 25 * t.critical - 10 * t.warning - 2 * t.info : Int).bmod (2 ^ 64)))
  plain_iff : (t.score : Int) = t.plainScore ↔ (t.weight - 100) % 2 ^ 64 ≤ 2 ^ 63
  exact_iff : t.Exact ↔ t.weight < 2 ^ 63
  plain_of_exact : t.Exact → (t.score : Int) = t.plainScore
  /-- Up to the first penalty that turns into credit more issues never make the score better. -/
  falls : t.weight ≤ 2 ^ 63 + 100 → ∀ s : Tally, s.critical ≤ t.critical → s.warning ≤ t.warning →
    s.info ≤ t.info → t.score ≤ s.score

/-- Words give the plain score up to a penalty of 2 ^ 63 + 100, and beyond it wherever the
difference does not wrap around to more than nothing. -/
theorem score_in_words (t : Tally) : t.ScoredInWords where
  wrapped := by
    have hdifference :
        100 - (t.weight : Int) = 100 - 25 * t.critical - 10 * t.warning - 2 * t.info := by
      unfold weight
      omega
    rw [score_eq_bmod, hdifference]
  plain_iff := by rw [plainScore_eq, Int.ofNat_inj, score_eq_iff]
  exact_iff := t.exact_iff
  plain_of_exact h := by
    have hscore : t.score = 100 - t.weight := score_eq (t.exact_iff.mp h)
    rw [plainScore_eq, hscore]
  falls h s hcritical hwarning hinfo := by
    have hweight : s.weight ≤ t.weight := by
      unfold weight
      omega
    have ht : t.score = 100 - t.weight := t.score_eq_iff.mpr (by omega)
    have hs : s.score = 100 - s.weight := s.score_eq_iff.mpr (by omega)
    omega

/-- As a signed word the greatest count is one less than nothing. -/
theorem warnings_turn_into_credit :
    (⟨0, 10, 0⟩ : Tally).score = 0 ∧ (⟨0, 2 ^ 64 - 1, 0⟩ : Tally).score = 100 ∧
      (⟨0, 2 ^ 64 - 1, 0⟩ : Tally).plainScore = 0 ∧ ¬(⟨0, 2 ^ 64 - 1, 0⟩ : Tally).Exact :=
  ⟨by decide, by decide, by decide, fun h => absurd h.warning (by decide)⟩

end MigrationAudit.Tally
