import MigrationAudit.Proofs.LatestScan
import MigrationAudit.Proofs.LegibleReport
import Mathlib.Data.List.Nodup

namespace MigrationAudit

/-- A text that is given as its characters need not be decoded first. -/
theorem Text.not_mem_toList_ofList {c : Char} {written : List Char} (h : c ∉ written) :
    c ∉ (String.ofList written).toList := by
  rwa [String.toList_ofList]

theorem Advice.verdict?_eq_some {advice : Advice} {text message : String} {found : List Match}
    (h : advice.verdict? text found = some message) : advice.message? = some message ∨
      ∃ judge, advice = .conditional judge ∧ (judge text found).value = .ok (some message) := by
  cases advice with
  | fixed words => exact .inl h
  | conditional judge =>
    refine .inr ⟨judge, rfl, ?_⟩
    rw [verdict?] at h
    rcases hvalue : (judge text found).value with e | (_ | words) <;> rw [hvalue] at h
    · cases h
    · cases h
    · dsimp only at h
      split_ifs at h
      rw [Option.some.inj h]

namespace Catalog

/-- The texts of a rule are on one line, and the brackets around its id are nowhere else. -/
theorem legible_rules : ∀ r ∈ rules, '❳' ∉ r.id.toList ∧ '❲' ∉ r.title.toList ∧
    '\n' ∉ r.id.toList ∧ '\n' ∉ r.title.toList ∧ '\n' ∉ r.description.toList ∧
    '\n' ∉ (r.advice.message?.getD "").toList := by
  simp only [rules, List.forall_mem_cons, List.not_mem_nil, IsEmpty.forall_iff, implies_true,
    and_true]
  repeat' apply And.intro
  all_goals exact Text.not_mem_toList_ofList (by decide +kernel)

theorem eq_of_isConditional {r : Rule} (hr : r ∈ rules) (h : r.advice.isConditional) :
    r = targetSdk ∨ r = javaVersion := by
  have hids : ∀ r ∈ rules, r.advice.isConditional → r.id = targetSdk.id ∨ r.id = javaVersion.id :=
    by decide +kernel
  exact (hids r hr h).imp (List.inj_on_of_nodup_map nodup_ids hr (by simp [rules]))
    (List.inj_on_of_nodup_map nodup_ids hr (by simp [rules]))

theorem message_of_judgeTarget {text message : String} {found : List Match}
    (h : (judgeTarget text found).value = .ok (some message)) :
    message = "Consider updating targetSdkVersion to 35 for Android 15 compatibility" := by
  rw [judgeTarget, Logged.value_bind, Logged.value_pure] at h
  rcases hvalue : (anyOutdated text.toList found).value with e | (_ | _) <;> rw [hvalue] at h
  · cases h
  · cases h
  · exact (Option.some.inj (Except.ok.inj h)).symm.trans (by decide)

theorem message_of_judgeJava {text message : String} {found : List Match}
    (h : (judgeJava text found).value = .ok (some message)) :
    message = "Consider updating to Java 17 features available in Android 15" := by
  have hvalue := Except.ok.inj h
  split_ifs at hvalue
  exact (Option.some.inj hvalue).symm

/-- Whatever a rule recommends is on one line. -/
theorem line_not_mem_verdict? {r : Rule} (hr : r ∈ rules) {text message : String}
    {found : List Match} (h : r.advice.verdict? text found = some message) :
    '\n' ∉ message.toList := by
  rcases Advice.verdict?_eq_some h with hfixed | ⟨judge, hjudge, hvalue⟩
  · obtain ⟨-, -, -, -, -, hline⟩ := legible_rules r hr
    rwa [hfixed] at hline
  · rcases eq_of_isConditional hr (by rw [hjudge]; rfl) with rfl | rfl
    · cases Advice.conditional.inj hjudge
      rw [message_of_judgeTarget hvalue]
      exact Text.not_mem_toList_ofList (by decide)
    · cases Advice.conditional.inj hjudge
      rw [message_of_judgeJava hvalue]
      exact Text.not_mem_toList_ofList (by decide)

end Catalog

open Catalog (rules)

theorem Rule.legible_of_issue? {f : InputFile} {r : Rule} {text : String} {i : Issue}
    (hr : r ∈ rules) (accepted : f.isAccepted) (hname : '\n' ∉ f.name.toList)
    (h : r.issue? f.name text = some i) : i.Legible := by
  have hproject : i.isProjectLevel = false := InputFile.not_isProjectLevel_of_issue? accepted h
  obtain ⟨-, message, hmessage, rfl⟩ := issue?_eq_some.mp h
  obtain ⟨hid, htitle, hidLine, htitleLine, hdescriptionLine, -⟩ := Catalog.legible_rules r hr
  have hmessageLine := Catalog.line_not_mem_verdict? hr hmessage
  constructor
  case id => exact hid
  case title => exact htitle
  case lines =>
    simp [Issue.texts, issueWith, hidLine, htitleLine, hdescriptionLine, hmessageLine, hname]
  case project => exact fun hlevel => absurd hlevel (Bool.eq_false_iff.mp hproject)

theorem Shape.legible_large (files : Nat) : (large files).Legible := by
  -- Only the number of files is not fixed.
  have hfixed : (large 0).Legible := ⟨by decide, by decide, by decide, fun _ => rfl⟩
  have hdescription : '\n' ∉ (large files).description.toList := by
    simp only [large, toString, Text.not_mem_toList_append]
    exact ⟨⟨by decide, Text.not_mem_toList_repr rfl _⟩, by decide⟩
  have hlines := hfixed.lines
  simp only [Issue.texts, List.forall_mem_cons] at hlines
  obtain ⟨hid, htitle, -, hothers⟩ := hlines
  refine ⟨hfixed.id, hfixed.title, ?_, fun _ => rfl⟩
  simp only [Issue.texts, List.forall_mem_cons]
  exact ⟨hid, htitle, hdescription, hothers⟩

theorem Shape.legible_of_mem_issues {s : Shape} {i : Issue} (h : i ∈ s.issues) : i.Legible := by
  have hi := s.issues_sublist.subset h
  simp only [List.mem_cons, List.not_mem_nil, or_false] at hi
  rcases hi with rfl | rfl | rfl
  · exact ⟨by decide, by decide, by decide, fun _ => rfl⟩
  · exact ⟨by decide, by decide, by decide, fun _ => rfl⟩
  · exact legible_large _

namespace Analysis

variable {files : List InputFile}

theorem legible_of_mem_issues (hnames : ∀ f ∈ files, '\n' ∉ f.name.toList) :
    ∀ i ∈ (ofFiles rules files).issues, i.Legible := by
  intro i hi
  rcases List.mem_append.mp hi with hi | hi
  · obtain ⟨f, hf, hi⟩ := List.mem_flatMap.mp hi
    obtain ⟨accepted, text, -, r, hr, hissue⟩ := InputFile.mem_contribution.mp hi
    exact r.legible_of_issue? hr accepted (hnames f hf) hissue
  · exact Shape.legible_of_mem_issues hi

theorem ofFiles_of_value_eq {a : Analysis} (h : (ofFiles? rules files).value = some a) :
    a = ofFiles rules files := by
  rw [value_ofFiles?] at h
  split_ifs at h
  exact (Option.some.inj h).symm

/-- All that a full report says comes from the issues and the number of files. -/
theorem report_all_eq {a b : Analysis} (hissues : a.issues = b.issues)
    (hfiles : a.analyzedFiles.length = b.analyzedFiles.length) : a.report .all = b.report .all := by
  simp only [report, score, tally, hissues, hfiles]

/-- Nothing is lost in the text of a full report: whatever the names of the files are, unless one
goes over lines, the issues and the number of files can be told from it. -/
theorem plain_report_tells {files files' : List InputFile} {a b : Analysis}
    (run : (ofFiles? rules files).value = some a) (run' : (ofFiles? rules files').value = some b)
    (names : ∀ f ∈ files, '\n' ∉ f.name.toList) (names' : ∀ f ∈ files', '\n' ∉ f.name.toList) :
    (a.report .all).render false = (b.report .all).render false ↔
      a.issues = b.issues ∧ a.analyzedFiles.length = b.analyzedFiles.length := by
  obtain rfl := ofFiles_of_value_eq run
  obtain rfl := ofFiles_of_value_eq run'
  have hselected (files : List InputFile) :
      ((ofFiles rules files).report .all).issues = (ofFiles rules files).issues := View.select_all _
  constructor
  · intro h
    have hreport := Report.render_inj (by rw [hselected]; exact legible_of_mem_issues names)
      (by rw [hselected]; exact legible_of_mem_issues names') h
    refine ⟨?_, congrArg Report.analyzedFileCount hreport⟩
    rw [← hselected, hreport, hselected]
  · rintro ⟨hissues, hfiles⟩
    rw [report_all_eq hissues hfiles]

/-- The names look like parts of a report; that the word was found once more can be told all the
same. -/
theorem plain_report_tells_brackets :
    let files : List InputFile :=
      [⟨"a ❲camera_api❳ Project Structure (2 occurrences).kt", none, some "Camera2".toUTF8⟩]
    let files' : List InputFile :=
      [⟨"a ❲camera_api❳ Project Structure (2 occurrences).kt", none, some "Camera2 Camera2".toUTF8⟩]
    (∀ f ∈ files, '\n' ∉ f.name.toList) ∧ (∀ f ∈ files', '\n' ∉ f.name.toList) ∧
      ∃ a b, (ofFiles? rules files).value = some a ∧ (ofFiles? rules files').value = some b ∧
        (a.report .all).render false ≠ (b.report .all).render false := by
  intro files files'
  have names : ∀ f ∈ files, '\n' ∉ f.name.toList := by decide
  have names' : ∀ f ∈ files', '\n' ∉ f.name.toList := by decide
  have run : (ofFiles? rules files).value = some (ofFiles rules files) :=
    value_ofFiles?_of_ne_nil rules (List.cons_ne_nil _ _)
  have run' : (ofFiles? rules files').value = some (ofFiles rules files') :=
    value_ofFiles?_of_ne_nil rules (List.cons_ne_nil _ _)
  have hissues : (ofFiles rules files).issues ≠ (ofFiles rules files').issues := by decide +kernel
  exact ⟨names, names', _, _, run, run', fun h =>
    hissues ((plain_report_tells run run' names names').mp h).1⟩

end Analysis

end MigrationAudit
