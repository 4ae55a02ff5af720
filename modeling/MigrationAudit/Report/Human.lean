import MigrationAudit.Analysis
import MigrationAudit.Style

namespace MigrationAudit

namespace Severity

def colour : Severity → Colour
  | critical => .red
  | warning => .yellow
  | info => .blue

def glyph : Severity → String
  | critical => "✖"
  | warning => "▲"
  | info => "◆"

def icon (s : Severity) (colour : Bool) : String :=
  if !colour then s.glyph else (Style.coloured s.colour).apply s.glyph

def badge (s : Severity) (colour : Bool) : String :=
  let text := s!"⟦{s.name}⟧"
  if !colour then text else (Style.strong s.colour).apply text

end Severity

def Band.colour : Band → Colour
  | good => .green
  | fair => .yellow
  | poor => .red

/-- A number of occurrences in words. -/
def occurrencesText (n : Nat) : String := if n = 1 then "1 occurrence" else s!"{n} occurrences"

/-- Three lines: what and where, the description, and the recommendation. -/
def Issue.render (i : Issue) (colour : Bool) : String :=
  let file := if colour then Style.bolded.apply i.file else i.file
  let place := if i.isProjectLevel then file else s!"{file} ({occurrencesText i.occurrences})"
  let icon := i.severity.icon colour
  let badge := i.severity.badge colour
  s!"{icon} {badge} {i.title} ❲{i.id}❳ {place}\n" ++ s!"    {i.description}\n" ++
    s!"    Recommendation: {i.message}\n"

namespace Report

/-- What stands in place of the issues when the view has none. -/
def allClear (colour : Bool) : String :=
  let headline := "No issues found"
  (if colour then
    (Style.coloured .green).apply "✔" ++ " " ++ (Style.strong .green).apply headline ++ "\n"
  else s!"✔ {headline}\n") ++
  "  No Android 15 compatibility issues were detected in the analyzed files.\n" ++
  "  Test thoroughly and review the migration guide before shipping.\n"

def summary (r : Report) : String :=
  s!"— Summary — issues={r.issueCount} files={r.analyzedFileCount} critical={r.tally.critical}" ++
    s!" warnings={r.tally.warning} infos={r.tally.info} filter={r.view.name}"

def conclusion (r : Report) (colour : Bool) : String :=
  let score := s!"{r.score}%"
  let score := if colour then (Style.strong r.band.colour).apply score else score
  (if colour then s!"{Style.bolded.apply r.summary}\n" else s!"{r.summary}\n") ++
    s!"Compatibility score: {score} ({r.band.name})\n"

/-- The report as people read it. -/
def render (r : Report) (colour : Bool) : String :=
  (if r.issues.isEmpty then allClear colour else "") ++
    String.join (r.issues.map (Issue.render · colour)) ++ r.conclusion colour

end Report

/-- Two lines on a rule of the catalog. -/
def Rule.render (r : Rule) (colour : Bool) : String :=
  let id := if colour then Style.bolded.apply r.id else r.id
  let badge := r.severity.badge colour
  s!"{badge} {id} {r.title}\n" ++ s!"    {r.description}\n"

def Rule.renderAll (rules : List Rule) (colour : Bool) : String :=
  String.join (rules.map (Rule.render · colour))

end MigrationAudit
