import MigrationAudit.Analysis
import Mathlib.Tactic.SplitIfs

namespace MigrationAudit

/-- The message that an advice comes to for a text with these matches. A judge that has nothing to
say or fails comes to none, and so does its empty message. -/
def Advice.verdict? (a : Advice) (text : String) (found : List Match) : Option String :=
  match a with
  | .fixed message => some message
  | .conditional judge =>
    match (judge text found).value with
    | .ok (some message) => if message = "" then none else some message
    | .ok none | .error _ => none

namespace Rule

def issueWith (r : Rule) (file text message : String) : Issue :=
  ⟨r.id, r.severity, r.title, r.description, message, file, (r.findAll text).length⟩

def issue? (r : Rule) (file text : String) : Option Issue :=
  if r.findAll text = [] then none
  else (r.advice.verdict? text (r.findAll text)).map (r.issueWith file text)

theorem issue?_eq_some {r : Rule} {file text : String} {i : Issue} :
    r.issue? file text = some i ↔ r.findAll text ≠ [] ∧
      ∃ message, r.advice.verdict? text (r.findAll text) = some message ∧
        r.issueWith file text message = i := by
  unfold issue?
  split_ifs with h <;> simp [h]

theorem issue?_id {r : Rule} {file text : String} {i : Issue} (h : r.issue? file text = some i) :
    i.id = r.id := by
  obtain ⟨-, message, -, rfl⟩ := issue?_eq_some.mp h
  rfl

theorem issue?_file {r : Rule} {file text : String} {i : Issue} (h : r.issue? file text = some i) :
    i.file = file := by
  obtain ⟨-, message, -, rfl⟩ := issue?_eq_some.mp h
  rfl

theorem issue?_occurrences {r : Rule} {file text : String} {i : Issue}
    (h : r.issue? file text = some i) :
    i.occurrences = (r.findAll text).length ∧ 1 ≤ i.occurrences := by
  obtain ⟨found, message, -, rfl⟩ := issue?_eq_some.mp h
  exact ⟨rfl, List.length_pos_iff.mpr found⟩

end Rule

namespace Issue

theorem value_ofMatches? (file text : String) (r : Rule) :
    (ofMatches? file text r (r.findAll text)).value =
      (r.advice.verdict? text (r.findAll text)).map (r.issueWith file text) := by
  unfold ofMatches? Advice.verdict?
  cases r.advice with
  | fixed message => rfl
  | conditional judge =>
    simp only [Logged.value_bind]
    rcases (judge text (r.findAll text)).value with e | (_ | message)
    · rfl
    · rfl
    · by_cases h : message = ""
      · simp [h]
      · simp [h, Rule.issueWith]

theorem value_ofText (rules : List Rule) (file text : String) :
    (ofText rules file text).value = rules.filterMap fun r => r.issue? file text := by
  simp only [ofText, Logged.value_bind, Logged.value_each, Logged.value_pure, findRules,
    List.filterMap_map, List.filterMap_filter]
  congr 1
  funext r
  by_cases h : r.findAll text = []
  · simp [Rule.issue?, h]
  · simp [Rule.issue?, h, value_ofMatches?]

end Issue

namespace InputFile

def text? (f : InputFile) : Option String := f.content.bind Text.decode?

theorem value_issues (rules : List Rule) (f : InputFile) :
    (f.issues rules).value =
      f.text?.elim [] fun text => rules.filterMap fun r => r.issue? f.name text := by
  unfold InputFile.issues text?
  cases f.content with
  | none => rfl
  | some bytes =>
    cases h : Text.decode? bytes with
    | none => simp [h]
    | some text => simp [h, Issue.value_ofText]

/-- The issues that a file adds to an analysis. -/
def contribution (rules : List Rule) (f : InputFile) : List Issue :=
  if f.isAccepted then (f.issues rules).value else []

theorem contribution_of_text?_eq_none {rules : List Rule} {f : InputFile} (h : f.text? = none) :
    f.contribution rules = [] := by
  simp [contribution, value_issues, h]

theorem contribution_of_text?_eq_some {rules : List Rule} {f : InputFile} {text : String}
    (accepted : f.isAccepted) (h : f.text? = some text) :
    f.contribution rules = rules.filterMap fun r => r.issue? f.name text := by
  simp [contribution, value_issues, accepted, h]

theorem mem_contribution {rules : List Rule} {f : InputFile} {i : Issue} :
    i ∈ f.contribution rules ↔ f.isAccepted ∧ ∃ text, f.text? = some text ∧
      ∃ r ∈ rules, r.issue? f.name text = some i := by
  unfold contribution
  split_ifs with h
  · cases ht : f.text? <;> simp [h, ht, value_issues]
  · simp [h]

theorem flatten_issues (rules : List Rule) (files : List InputFile) :
    ((files.filter isAccepted).map fun f => (f.issues rules).value).flatten =
      files.flatMap (contribution rules) := by
  induction files with
  | nil => simp
  | cons f files ih =>
    by_cases h : f.isAccepted
    · simp [h, ih, contribution]
    · simp [h, ih, contribution]

/-- No accepted name is the one that stands for the project. -/
theorem isAcceptedName_projectName : isAcceptedName Issue.projectName = false := by decide +kernel

theorem not_isProjectLevel_of_issue? {f : InputFile} {r : Rule} {text : String} {i : Issue}
    (accepted : f.isAccepted) (h : r.issue? f.name text = some i) : i.isProjectLevel = false := by
  simp only [Issue.isProjectLevel, decide_eq_false_iff_not]
  intro hproject
  have hname : f.name = Issue.projectName := (Rule.issue?_file h).symm.trans hproject
  simp [isAccepted, hname, isAcceptedName_projectName] at accepted

end InputFile

namespace Shape

theorem issues_sublist (s : Shape) :
    s.issues.Sublist [missingManifest, missingGradle, large s.totalFiles] := by
  unfold issues
  split_ifs <;> simp

theorem isProjectLevel_of_mem_issues {s : Shape} {i : Issue} (h : i ∈ s.issues) :
    i.isProjectLevel ∧ i.occurrences = 0 := by
  have hi := s.issues_sublist.subset h
  simp only [List.mem_cons, List.not_mem_nil, or_false] at hi
  rcases hi with rfl | rfl | rfl <;>
    exact ⟨by simp [Issue.isProjectLevel, missingManifest, missingGradle, large], rfl⟩

end Shape

namespace Analysis

def ofFiles (rules : List Rule) (files : List InputFile) : Analysis where
  shape := Shape.ofFiles (files.filter InputFile.isAccepted)
  issues := files.flatMap (InputFile.contribution rules) ++
    (Shape.ofFiles (files.filter InputFile.isAccepted)).issues
  analyzedFiles := (files.filter InputFile.isAccepted).map InputFile.name

theorem value_ofFiles? (rules : List Rule) (files : List InputFile) :
    (ofFiles? rules files).value = if files = [] then none else some (ofFiles rules files) := by
  unfold ofFiles?
  cases files with
  | nil => rfl
  | cons f files =>
    simp only [List.isEmpty_cons, Bool.false_eq_true, if_false, Logged.value_bind,
      Logged.value_each, Logged.value_pure, InputFile.accepted, Issue.collect,
      InputFile.flatten_issues]
    rw [if_neg (List.cons_ne_nil f files), ofFiles]

theorem value_ofFiles?_of_ne_nil (rules : List Rule) {files : List InputFile} (h : files ≠ []) :
    (ofFiles? rules files).value = some (ofFiles rules files) := by
  rw [value_ofFiles?, if_neg h]

theorem issues_eq_flatten (rules : List Rule) (files : List InputFile) :
    (ofFiles rules files).issues =
      (files.map (InputFile.contribution rules)).flatten ++ (ofFiles rules files).shape.issues := by
  rw [← List.flatMap_def]
  rfl

end Analysis

end MigrationAudit
