import MigrationAudit.Program
import MigrationAudit.Proofs.Contribution
import MigrationAudit.Proofs.Penalty
import Mathlib.Data.List.Flatten
import Mathlib.Data.List.Forall2

namespace MigrationAudit

theorem Text.endsWith_lower {s ending : String} (h : endsWith s ending) :
    endsWith (lower s) (lower ending) := by
  have hsuffix : ending.toList <:+ s.toList := List.isSuffixOf_iff_suffix.mp h
  apply List.isSuffixOf_iff_suffix.mpr
  simpa [lower] using hsuffix.map Char.toLower

def Band.rank : Band → Nat
  | good => 2
  | fair => 1
  | poor => 0

theorem Band.rank_ofScore_mono {m n : Nat} (h : m ≤ n) : (ofScore m).rank ≤ (ofScore n).rank := by
  unfold ofScore
  split_ifs <;> first | omega | decide

theorem Settings.failsOn_iff {s : Settings} {issues : List Issue} :
    s.failsOn issues ↔ ∃ threshold, s.failOn = some threshold ∧
      ∃ i ∈ issues, i.severity.atLeast threshold := by
  unfold failsOn
  cases s.failOn <;> simp

namespace Tally

theorem ofIssues_total (issues : List Issue) :
    (ofIssues issues).critical + (ofIssues issues).warning + (ofIssues issues).info =
      issues.length := by
  induction issues with
  | nil => rfl
  | cons i issues ih =>
    simp only [ofIssues, List.countP_cons, List.length_cons] at *
    cases i.severity <;> simp <;> omega

theorem score_anti {s t : Tally} (critical : s.critical ≤ t.critical)
    (warning : s.warning ≤ t.warning) (info : s.info ≤ t.info) (h : t.weight < 2 ^ 63) :
    t.score ≤ s.score := by
  have hweight : s.weight ≤ t.weight := by
    unfold weight
    omega
  rw [score_eq h, score_eq (Nat.lt_of_le_of_lt hweight h)]
  omega

theorem weight_ofIssues_lt {issues : List Issue} (h : issues.length < 2 ^ 58) :
    (ofIssues issues).weight < 2 ^ 63 := by
  have htotal := ofIssues_total issues
  unfold weight
  omega

end Tally

structure IsComplete (files : List InputFile) : Prop where
  manifest : ∃ f ∈ files, f.name = "AndroidManifest.xml"
  gradle : ∃ f ∈ files, Text.endsWith f.name ".gradle"

theorem IsComplete.mono {files more : List InputFile} (h : IsComplete files)
    (sublist : files.Sublist more) : IsComplete more := by
  obtain ⟨⟨f, hf, hname⟩, ⟨g, hg, hending⟩⟩ := h
  exact ⟨⟨f, sublist.mem hf, hname⟩, ⟨g, sublist.mem hg, hending⟩⟩

namespace Shape

/-- One issue is the other, or both tell of a large project and the second of one no smaller. -/
def SameButForSize (i j : Issue) : Prop := i = j ∨ ∃ m n, m ≤ n ∧ i = large m ∧ j = large n

theorem SameButForSize.severity_eq {i j : Issue} (h : SameButForSize i j) :
    i.severity = j.severity := by
  rcases h with rfl | ⟨m, n, -, rfl, rfl⟩
  · rfl
  · rfl

theorem map_severity_eq {issues issues' : List Issue}
    (h : List.Forall₂ SameButForSize issues issues') :
    issues.map Issue.severity = issues'.map Issue.severity := by
  induction h with
  | nil => rfl
  | cons hij _ ih => rw [List.map_cons, List.map_cons, hij.severity_eq, ih]

theorem isEmpty_files_of_mem {files : List InputFile} {f : InputFile} (hf : f ∈ files)
    {kind : FileKind} (h : kind.holds f.name) : ((ofFiles files).files kind).isEmpty = false := by
  have hmem : f.path ∈ (ofFiles files).files kind :=
    List.mem_map_of_mem (List.mem_filter.mpr ⟨hf, h⟩)
  exact List.isEmpty_eq_false_iff.mpr (List.ne_nil_of_mem hmem)

/-- All that is left to say about a complete project is how large it is. -/
theorem issues_of_isComplete {files : List InputFile} (h : IsComplete files) :
    (ofFiles (files.filter InputFile.isAccepted)).issues =
      if (files.filter InputFile.isAccepted).length > largeProject then
        [large (files.filter InputFile.isAccepted).length]
      else [] := by
  obtain ⟨⟨f, hf, hname⟩, ⟨g, hg, hending⟩⟩ := h
  have hf' : f ∈ files.filter InputFile.isAccepted := by
    apply List.mem_filter.mpr
    refine ⟨hf, ?_⟩
    rw [InputFile.isAccepted, hname]
    decide +kernel
  have hg' : g ∈ files.filter InputFile.isAccepted := by
    apply List.mem_filter.mpr
    refine ⟨hg, ?_⟩
    have hlower : Text.endsWith (Text.lower g.name) (Text.lower ".gradle") :=
      Text.endsWith_lower hending
    rw [show Text.lower ".gradle" = ".gradle" by decide +kernel] at hlower
    simp [InputFile.isAccepted, InputFile.isAcceptedName, InputFile.acceptedEndings, hlower]
  have hmanifest :
      ((ofFiles (files.filter InputFile.isAccepted)).files .manifest).isEmpty = false :=
    isEmpty_files_of_mem hf' (by simp [FileKind.holds, FileKind.manifestName, hname])
  have hgradle : ((ofFiles (files.filter InputFile.isAccepted)).files .gradle).isEmpty = false :=
    isEmpty_files_of_mem hg' (by simp [FileKind.holds, hending])
  rw [issues, hmanifest, hgradle]
  rfl

end Shape

namespace Analysis

/-- The analysis `b` finds all that `a` finds, so that its verdict is no better. -/
structure NoBetter (a b : Analysis) : Prop where
  issues : ∃ kept, List.Forall₂ Shape.SameButForSize a.issues kept ∧ kept.Sublist b.issues
  severities : ∀ s, a.issues.countP (·.severity = s) ≤ b.issues.countP (·.severity = s)
  score : b.issues.length < 2 ^ 58 → b.score ≤ a.score
  band : b.issues.length < 2 ^ 58 → (Band.ofScore b.score).rank ≤ (Band.ofScore a.score).rank
  fails : ∀ settings : Settings, settings.failsOn a.issues → settings.failsOn b.issues

/-- What a verdict hangs on are the severities alone. -/
theorem NoBetter.of_kept {a b : Analysis}
    (h : ∃ kept, List.Forall₂ Shape.SameButForSize a.issues kept ∧ kept.Sublist b.issues) :
    NoBetter a b := by
  have hseverities : (a.issues.map Issue.severity).Sublist (b.issues.map Issue.severity) := by
    obtain ⟨kept, hsame, hkept⟩ := h
    rw [Shape.map_severity_eq hsame]
    exact hkept.map _
  have hcount (s : Severity) :
      a.issues.countP (·.severity = s) ≤ b.issues.countP (·.severity = s) := by
    have hle := hseverities.countP_le (p := fun t => decide (t = s))
    rwa [List.countP_map, List.countP_map] at hle
  have hscore (few : b.issues.length < 2 ^ 58) : b.score ≤ a.score :=
    Tally.score_anti (hcount .critical) (hcount .warning) (hcount .info)
      (Tally.weight_ofIssues_lt few)
  refine ⟨h, hcount, hscore, fun few => Band.rank_ofScore_mono (hscore few), ?_⟩
  intro settings hfails
  obtain ⟨threshold, hthreshold, i, hi, hsevere⟩ := Settings.failsOn_iff.mp hfails
  obtain ⟨j, hj, hsame⟩ := List.mem_map.mp (hseverities.mem (List.mem_map_of_mem hi))
  exact Settings.failsOn_iff.mpr ⟨threshold, hthreshold, j, hj, hsame ▸ hsevere⟩

theorem issues_of_isComplete (rules : List Rule) {files : List InputFile} (h : IsComplete files) :
    (ofFiles rules files).issues = files.flatMap (InputFile.contribution rules) ++
      if (files.filter InputFile.isAccepted).length > Shape.largeProject then
        [Shape.large (files.filter InputFile.isAccepted).length]
      else [] := by
  rw [← Shape.issues_of_isComplete h]
  rfl

theorem noBetter_ofFiles (rules : List Rule) {files more : List InputFile}
    (sublist : files.Sublist more) (complete : IsComplete files) :
    NoBetter (ofFiles rules files) (ofFiles rules more) := by
  have haccepted : (files.filter InputFile.isAccepted).length ≤
      (more.filter InputFile.isAccepted).length :=
    (sublist.filter _).length_le
  have hfiles : (files.flatMap (InputFile.contribution rules)).Sublist
      (more.flatMap (InputFile.contribution rules)) := sublist.flatMap _
  have hrefl (issues : List Issue) : List.Forall₂ Shape.SameButForSize issues issues :=
    List.forall₂_same.mpr fun i _ => .inl rfl
  apply NoBetter.of_kept
  rw [issues_of_isComplete rules complete, issues_of_isComplete rules (complete.mono sublist)]
  by_cases hlarge : (files.filter InputFile.isAccepted).length > Shape.largeProject
  · have hlarger : (more.filter InputFile.isAccepted).length > Shape.largeProject :=
      Nat.lt_of_lt_of_le hlarge haccepted
    rw [if_pos hlarge, if_pos hlarger]
    refine ⟨files.flatMap (InputFile.contribution rules) ++
      [Shape.large (more.filter InputFile.isAccepted).length], ?_, hfiles.append_right _⟩
    apply List.rel_append (hrefl _)
    exact .cons (.inr ⟨_, _, haccepted, rfl, rfl⟩) .nil
  · rw [if_neg hlarge, List.append_nil]
    exact ⟨_, hrefl _, hfiles.trans (List.sublist_append_left _ _)⟩

/-- More files never lead to a better verdict on a project that has a manifest and a Gradle file.
Without them it can be otherwise, for the missing file may be among those that are added. -/
theorem more_files_no_better (rules : List Rule) (files more : List InputFile)
    (sublist : files.Sublist more) (manifest : ∃ f ∈ files, f.name = "AndroidManifest.xml")
    (gradle : ∃ f ∈ files, Text.endsWith f.name ".gradle") :
    ∃ a b, (ofFiles? rules files).value = some a ∧ (ofFiles? rules more).value = some b ∧
      NoBetter a b := by
  have complete : IsComplete files := ⟨manifest, gradle⟩
  obtain ⟨f, hf, -⟩ := manifest
  have some_file : files ≠ [] := List.ne_nil_of_mem hf
  have some_file' : more ≠ [] := List.ne_nil_of_mem (sublist.mem hf)
  exact ⟨_, _, value_ofFiles?_of_ne_nil rules some_file, value_ofFiles?_of_ne_nil rules some_file',
    noBetter_ofFiles rules sublist complete⟩

/-- A Java file and one that is not accepted come in between. -/
theorem more_files_no_better_java :
    let manifest : InputFile := ⟨"AndroidManifest.xml", some "app/AndroidManifest.xml", none⟩
    let gradle : InputFile := ⟨"build.gradle", none, some "targetSdkVersion 34".toUTF8⟩
    let java : InputFile := ⟨"A.java", none, some "Camera2".toUTF8⟩
    let image : InputFile := ⟨"logo.png", none, none⟩
    let files := [manifest, gradle]
    let more := [manifest, java, image, gradle]
    files.Sublist more ∧ (∃ f ∈ files, f.name = "AndroidManifest.xml") ∧
      (∃ f ∈ files, Text.endsWith f.name ".gradle") ∧
      ∃ a b, (ofFiles? Catalog.rules files).value = some a ∧
        (ofFiles? Catalog.rules more).value = some b ∧ NoBetter a b := by
  intro manifest gradle java image files more
  have sublist : files.Sublist more :=
    ((List.Sublist.refl [gradle]).cons image |>.cons java).cons_cons manifest
  have hmanifest : ∃ f ∈ files, f.name = "AndroidManifest.xml" :=
    ⟨manifest, List.mem_cons_self, rfl⟩
  have hgradle : ∃ f ∈ files, Text.endsWith f.name ".gradle" := ⟨gradle, by simp [files], by decide⟩
  exact ⟨sublist, hmanifest, hgradle, more_files_no_better _ _ _ sublist hmanifest hgradle⟩

end Analysis

end MigrationAudit
