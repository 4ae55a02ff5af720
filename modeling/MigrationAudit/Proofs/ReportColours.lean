import MigrationAudit.Proofs.StyledReport

namespace MigrationAudit

namespace Issue

def texts (i : Issue) : List String := [i.id, i.title, i.description, i.message, i.file]

theorem escape_not_mem_styled {i : Issue} (h : ∀ t ∈ i.texts, '\x1b' ∉ t.toList) :
    ∀ part ∈ i.styled, '\x1b' ∉ part.2.toList := by
  simp only [texts, List.forall_mem_cons] at h
  obtain ⟨hid, htitle, hdescription, hmessage, hfile, -⟩ := h
  have hseverity : '\x1b' ∉ i.severity.glyph.toList ∧ '\x1b' ∉ i.severity.name.toList := by
    cases i.severity <;> decide
  have hcount : '\x1b' ∉ (if i.isProjectLevel then "" else " (" ++ occurrencesText i.occurrences ++
      ")").toList := by
    have hdigits : '\x1b' ∉ i.occurrences.repr.toList := Text.not_mem_toList_repr rfl _
    unfold occurrencesText
    split_ifs
    · decide
    · decide
    · simp only [toString, Text.not_mem_toList_append, hdigits, not_false_eq_true]
      decide
  simp only [styled, Severity.iconPart, Severity.badgePart, List.forall_mem_cons, toString,
    Text.not_mem_toList_append, hid, htitle, hdescription, hmessage, hfile, hseverity, hcount,
    not_false_eq_true, and_true, true_and]
  decide

end Issue

namespace Report

variable {r : Report}

theorem not_mem_summary (r : Report) {c : Char} (h : c = '\x1b' ∨ c = '\n') :
    c ∉ r.summary.toList := by
  have hdigits (n : Nat) : c ∉ n.repr.toList :=
    Text.not_mem_toList_repr (by rcases h with rfl | rfl <;> rfl) n
  have hview : c ∉ r.view.name.toList := by
    cases r.view with
    | all => rcases h with rfl | rfl <;> decide
    | only s => rcases h with rfl | rfl <;> cases s <;> decide
  unfold summary
  simp only [toString, Text.not_mem_toList_append, hdigits, hview, not_false_eq_true]
  rcases h with rfl | rfl <;> decide

theorem escape_not_mem_styled (h : ∀ i ∈ r.issues, ∀ t ∈ i.texts, '\x1b' ∉ t.toList) :
    ∀ part ∈ r.styled, '\x1b' ∉ part.2.toList := by
  have hscore : '\x1b' ∉ r.score.repr.toList := Text.not_mem_toList_repr rfl _
  have hband : '\x1b' ∉ r.band.name.toList := by cases r.band <;> decide
  intro part hpart
  rw [styled, List.mem_append, List.mem_append] at hpart
  rcases hpart with (hpart | hpart) | hpart
  · have hclear : ∀ part ∈ allClearParts, '\x1b' ∉ part.2.toList := by decide
    split_ifs at hpart
    · exact hclear part hpart
    · exact absurd hpart List.not_mem_nil
  · obtain ⟨i, hi, hpart⟩ := List.mem_flatMap.mp hpart
    exact Issue.escape_not_mem_styled (h i hi) part hpart
  · revert part
    simp only [conclusionParts, List.forall_mem_cons, toString, Text.not_mem_toList_append,
      r.not_mem_summary (.inl rfl), hscore, hband, not_false_eq_true]
    decide

/-- What stands in a style is on one line, if every text is. -/
theorem line_of_mem_styled (h : ∀ i ∈ r.issues, ∀ t ∈ i.texts, '\n' ∉ t.toList) :
    ∀ part ∈ r.styled, part.1 ≠ .plain → '\n' ∉ part.2.toList := by
  intro part hpart hstyle
  rw [styled, List.mem_append, List.mem_append] at hpart
  rcases hpart with (hpart | hpart) | hpart
  · have hclear : ∀ part ∈ allClearParts, part.1 ≠ .plain → '\n' ∉ part.2.toList := by decide
    split_ifs at hpart
    · exact hclear part hpart hstyle
    · exact absurd hpart List.not_mem_nil
  · obtain ⟨i, hi, hpart⟩ := List.mem_flatMap.mp hpart
    simp only [Issue.styled, List.mem_cons, List.not_mem_nil, or_false] at hpart
    rcases hpart with rfl | rfl | rfl | rfl | rfl | rfl | rfl
    · show '\n' ∉ i.severity.glyph.toList
      cases i.severity <;> decide
    · exact absurd rfl hstyle
    · show '\n' ∉ i.severity.badgePart.2.toList
      cases i.severity <;> decide
    · exact absurd rfl hstyle
    · exact h i hi i.file (by simp [Issue.texts])
    · exact absurd rfl hstyle
    · exact absurd rfl hstyle
  · simp only [conclusionParts, List.mem_cons, List.not_mem_nil, or_false] at hpart
    rcases hpart with rfl | rfl | rfl | rfl
    · exact r.not_mem_summary (.inr rfl)
    · exact absurd rfl hstyle
    · exact Text.not_mem_toList_append.mpr ⟨Text.not_mem_toList_repr rfl _, by decide⟩
    · exact absurd rfl hstyle

/-- Colours change nothing of what a report says, and each of them ends on its line. -/
theorem colours_come_off (r : Report) (plain : ∀ i ∈ r.issues, ∀ t ∈ i.texts, '\x1b' ∉ t.toList) :
    Text.withoutSequences (r.render true).toList = (r.render false).toList ∧
      Style.SpansEnd (∀ i ∈ r.issues, ∀ t ∈ i.texts, '\n' ∉ t.toList) (r.render true).toList := by
  have hescape := escape_not_mem_styled plain
  rw [render_eq, render_eq]
  refine ⟨Styled.withoutSequences_toText hescape,
    Styled.spansEnd_toText hescape fun part hpart hstyle hlines => ?_⟩
  exact line_of_mem_styled hlines part hpart hstyle

/-- Characters that look like a sequence but for the escape. -/
theorem colours_come_off_bracket :
    let i : Issue := ⟨"camera_api", .info, "Camera", "Features", "Review",
        "a[31m (3 occurrences).kt", 2⟩
    let r : Report := ⟨1, 1, 98, .good, ⟨0, 0, 1⟩, .only .info, [i]⟩
    (∀ i ∈ r.issues, ∀ t ∈ i.texts, '\x1b' ∉ t.toList) ∧
      Text.withoutSequences (r.render true).toList = (r.render false).toList ∧
      Style.SpansEnd (∀ i ∈ r.issues, ∀ t ∈ i.texts, '\n' ∉ t.toList) (r.render true).toList := by
  intro i r
  have plain : ∀ i ∈ r.issues, ∀ t ∈ i.texts, '\x1b' ∉ t.toList := by decide
  exact ⟨plain, r.colours_come_off plain⟩

end Report

end MigrationAudit
