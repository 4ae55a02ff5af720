import MigrationAudit.Proofs.Growing
import MigrationAudit.Proofs.Reordering
import Mathlib.Algebra.GroupWithZero.Nat

namespace MigrationAudit

def Issue.scoreOf (issues : List Issue) : Nat := (Tally.ofIssues issues).score

/-- What is left of a hundred when each part takes from it what it lacks itself. -/
def Tally.joinScores (scores : List Nat) : Nat := 100 - (scores.map (100 - ·)).sum

namespace Tally

theorem weight_ofIssues_append (a b : List Issue) :
    (ofIssues (a ++ b)).weight = (ofIssues a).weight + (ofIssues b).weight := by
  simp only [weight, ofIssues, List.countP_append]
  omega

/-- No issue is free. -/
theorem length_le_weight_ofIssues (issues : List Issue) :
    issues.length ≤ (ofIssues issues).weight := by
  have htotal := ofIssues_total issues
  unfold weight
  omega

end Tally

namespace Issue
open Tally

variable {issues a b : List Issue}

theorem scoreOf_eq (few : issues.length < 2 ^ 58) :
    scoreOf issues = 100 - (ofIssues issues).weight :=
  score_eq (weight_ofIssues_lt few)

/-- The clamp forgets how far a part is below zero, but then nothing is left of the whole either. -/
theorem scoreOf_append (few : a.length + b.length < 2 ^ 58) :
    (scoreOf (a ++ b) : Int) = max 0 (scoreOf a + scoreOf b - 100) := by
  have hwhole : scoreOf (a ++ b) = 100 - (ofIssues (a ++ b)).weight :=
    scoreOf_eq (by rw [List.length_append]; exact few)
  have hleft : scoreOf a = 100 - (ofIssues a).weight := scoreOf_eq (by omega)
  have hright : scoreOf b = 100 - (ofIssues b).weight := scoreOf_eq (by omega)
  have hsum := weight_ofIssues_append a b
  omega

theorem scoreOf_perm (h : a.Perm b) : scoreOf a = scoreOf b := by
  rw [scoreOf, scoreOf, ofIssues_perm h]

theorem scoreOf_eq_hundred_iff (few : issues.length < 2 ^ 58) :
    scoreOf issues = 100 ↔ issues = [] := by
  have hscore := scoreOf_eq few
  constructor
  · intro h
    have hlength := length_le_weight_ofIssues issues
    exact List.length_eq_zero_iff.mp (by omega)
  · rintro rfl
    rfl

/-- However the issues are cut into parts, the score of the whole is told by the scores of the
parts. -/
theorem scoreOf_flatten {parts : List (List Issue)} (few : parts.flatten.length < 2 ^ 58) :
    scoreOf parts.flatten = joinScores (parts.map scoreOf) := by
  induction parts with
  | nil => rfl
  | cons part parts ih =>
    rw [List.flatten_cons, List.length_append] at few
    have hrest : scoreOf parts.flatten = joinScores (parts.map scoreOf) := ih (by omega)
    have happend := scoreOf_append few
    rw [hrest] at happend
    unfold joinScores at *
    rw [List.flatten_cons, List.map_cons, List.map_cons, List.sum_cons]
    have hle : scoreOf part ≤ 100 := Nat.min_le_right _ _
    omega

end Issue

open Issue Analysis

/-- Scores add up, whatever has been cut off at zero: of two lists of issues together, in any order,
and of an analysis from what was found in each file and about the project. -/
theorem scores_add_up :
    (∀ a b : List Issue, a.length + b.length < 2 ^ 58 →
      (scoreOf (a ++ b) : Int) = max 0 (scoreOf a + scoreOf b - 100)) ∧
    (∀ a b : List Issue, a.Perm b → scoreOf a = scoreOf b) ∧
    (∀ a : List Issue, a.length < 2 ^ 58 → (scoreOf a = 100 ↔ a = [])) ∧
    ∀ (rules : List Rule) (files : List InputFile), files ≠ [] →
      ∃ a, (ofFiles? rules files).value = some a ∧ (a.issues.length < 2 ^ 58 →
        a.score = Tally.joinScores ((blocks rules files ++ [a.shape.issues]).map scoreOf)) := by
  refine ⟨fun a b => scoreOf_append, fun a b => scoreOf_perm, fun a => scoreOf_eq_hundred_iff, ?_⟩
  intro rules files some_file
  refine ⟨_, value_ofFiles?_of_ne_nil rules some_file, fun few => ?_⟩
  have hparts : (ofFiles rules files).issues =
      (blocks rules files ++ [(ofFiles rules files).shape.issues]).flatten := by
    rw [issues_eq_blocks, List.flatten_append, List.flatten_singleton]
  rw [hparts] at few
  rw [Analysis.score, Analysis.tally, hparts]
  exact scoreOf_flatten few

/-- Five missing manifests are worth no less than four. -/
theorem scores_add_up_cut_off :
    let manifests := List.replicate 5 Shape.missingManifest
    manifests.length + [Shape.missingGradle].length < 2 ^ 58 ∧
      scoreOf manifests = 0 ∧ scoreOf [Shape.missingGradle] = 90 ∧
      scoreOf (manifests ++ [Shape.missingGradle]) = 0 := by
  intro manifests
  have few : manifests.length + [Shape.missingGradle].length < 2 ^ 58 := by decide
  have hleft : scoreOf manifests = 0 := by decide
  have hright : scoreOf [Shape.missingGradle] = 90 := by decide
  obtain ⟨happend, -⟩ := scores_add_up
  have hwhole := happend manifests [Shape.missingGradle] few
  rw [hleft, hright] at hwhole
  exact ⟨few, hleft, hright, Int.ofNat_inj.mp hwhole⟩

end MigrationAudit
