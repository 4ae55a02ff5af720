import MigrationAudit.Proofs.Rendition

namespace MigrationAudit

namespace Styled

variable {colour : Bool}

theorem toText_append (t u : Styled) :
    toText colour (t ++ u) = toText colour t ++ toText colour u := by
  rw [toText, List.map_append, String.join_append]
  rfl

theorem toText_flatMap {α : Type} (f : α → Styled) (l : List α) :
    toText colour (l.flatMap f) = String.join (l.map fun a => toText colour (f a)) := by
  induction l with
  | nil => rfl
  | cons a l ih => rw [List.flatMap_cons, toText_append, ih, List.map_cons, String.join_cons]

end Styled

def Severity.iconPart (s : Severity) : Style × String := (.coloured s.colour, s.glyph)

def Severity.badgePart (s : Severity) : Style × String := (.strong s.colour, s!"⟦{s.name}⟧")

def Issue.styled (i : Issue) : Styled :=
  [i.severity.iconPart, (.plain, " "), i.severity.badgePart, (.plain, s!" {i.title} ❲{i.id}❳ "),
   (.bolded, i.file),
   (.plain, if i.isProjectLevel then "" else s!" ({occurrencesText i.occurrences})"),
   (.plain, s!"\n    {i.description}\n    Recommendation: {i.message}\n")]

theorem Issue.render_eq (i : Issue) (colour : Bool) :
    i.render colour = i.styled.toText colour := by
  rw [← String.toList_inj]
  cases colour <;> cases hproject : i.isProjectLevel <;>
    simp [render, styled, hproject, Styled.toList_toText, Severity.icon, Severity.badge,
      Severity.iconPart, Severity.badgePart, toString, Style.plain, Style.apply]

namespace Report

def allClearParts : Styled :=
  [(.coloured .green, "✔"), (.plain, " "), (.strong .green, "No issues found"),
   (.plain, "\n  No Android 15 compatibility issues were detected in the analyzed files.\n"),
   (.plain, "  Test thoroughly and review the migration guide before shipping.\n")]

def conclusionParts (r : Report) : Styled :=
  [(.bolded, r.summary), (.plain, "\nCompatibility score: "),
   (.strong r.band.colour, s!"{r.score}%"), (.plain, s!" ({r.band.name})\n")]

def styled (r : Report) : Styled :=
  (if r.issues.isEmpty then allClearParts else []) ++ r.issues.flatMap Issue.styled ++
    r.conclusionParts

/-- A report is the same list of parts with colours and without, and only the styles differ. -/
theorem render_eq (r : Report) (colour : Bool) : r.render colour = r.styled.toText colour := by
  have hclear : (if r.issues.isEmpty then allClear colour else "") =
      Styled.toText colour (if r.issues.isEmpty then allClearParts else []) := by
    rw [apply_ite (Styled.toText colour)]
    congr 1
    cases colour <;> decide +kernel
  have hconclusion : r.conclusion colour = r.conclusionParts.toText colour := by
    rw [← String.toList_inj]
    cases colour <;>
      simp [conclusion, conclusionParts, Styled.toList_toText, toString, Style.plain, Style.apply]
  simp only [render, styled, Styled.toText_append, Styled.toText_flatMap, hclear, hconclusion,
    Issue.render_eq]

end Report

end MigrationAudit
