import MigrationAudit.Proofs.Stages

namespace MigrationAudit

/-- At least the end of its last line stands in every report. -/
theorem Report.write_ne_empty (r : Report) (colour : Bool) (mode : OutputMode) :
    r.write colour mode ≠ "" := by
  intro hempty
  have hlast := congrArg String.toList hempty
  cases mode with
  | human => simp [write, render, conclusion, toString] at hlast
  | json => simp [write] at hlast

namespace Program

/-- What a scan leaves: on its output there is one whole report, which is
never empty, or nothing. -/
structure AllOrNothing (tree : FileTree) (colour : Bool) (paths : List Path) (o : Overrides)
    (left : Streams) : Prop where
  comes_to : Fails tree paths o ∨ ∃ s files, Collects tree paths o s files
  apart : ∀ s files, Collects tree paths o s files → ¬Fails tree paths o
  failed : Fails tree paths o → left.exitCode = 2 ∧ left.output = ""
  nothing : ∀ s, Collects tree paths o s [] → left.exitCode = 0 ∧ left.output = ""
  report : ∀ s files, Collects tree paths o s files → files ≠ [] →
    ∃ a, (Analysis.ofFiles? Catalog.rules files).value = some a ∧
      a.analyzedFiles = files.map InputFile.name ∧ left.output ≠ "" ∧
      (s.output = .human → left.output = (a.report s.view).render colour) ∧
      (s.output = .json → left.output = (a.report s.view).toJson.pretty 0 ++ "\n") ∧
      (left.exitCode = 0 ∨ left.exitCode = 1)

/-- Wherever a scan goes wrong its output is empty, and else it is one report of all collected
files. What is logged of the scan, and whether anything is, has no part in it. -/
theorem scan_all_or_nothing (tree : FileTree) (colour verbose : Bool)
    (logging : Option (Option Level)) (paths : List Path) (o : Overrides) :
    AllOrNothing tree colour paths o (streams tree colour logging ⟨verbose, .scan paths o⟩) ∧
      ∀ verbose' logging',
        (streams tree colour logging' ⟨verbose', .scan paths o⟩).exitCode =
            (streams tree colour logging ⟨verbose, .scan paths o⟩).exitCode ∧
          (streams tree colour logging' ⟨verbose', .scan paths o⟩).output =
            (streams tree colour logging ⟨verbose, .scan paths o⟩).output := by
  refine ⟨⟨?comes_to, fun s files => Collects.not_fails, ?failed, ?nothing, ?report⟩, ?logged⟩
  case comes_to =>
    rcases scan_cases tree colour paths o with ⟨hfails, -⟩ | ⟨s, files, hcollects, -⟩
    · exact .inl hfails
    · exact .inr ⟨s, files, hcollects⟩
  case failed =>
    intro hfails
    exact hfails.scan colour
  case nothing =>
    intro s hcollects
    exact hcollects.scan_of_nil colour
  case report =>
    intro s files hcollects some_file
    obtain ⟨hexit, houtput⟩ := hcollects.scan_of_ne_nil some_file colour
    refine ⟨_, Analysis.value_ofFiles?_of_ne_nil _ some_file,
      hcollects.analyzedFiles_eq _, ?_, ?_, ?_, ?_⟩
    · exact houtput.trans_ne (Report.write_ne_empty _ _ _)
    · intro human
      rw [human] at houtput
      exact houtput
    · intro json
      rw [json] at houtput
      exact houtput
    · exact hcollects.exitCode_zero_or_one some_file colour
  case logged =>
    intro verbose' logging'
    exact ⟨rfl, rfl⟩

end Program

end MigrationAudit
