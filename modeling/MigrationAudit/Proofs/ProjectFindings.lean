import MigrationAudit.Proofs.Kinds
import MigrationAudit.Proofs.RuleIsolation
import MigrationAudit.Text.Decimal

namespace MigrationAudit

/-- The decimal digits of a number are read as that number. -/
theorem Text.natural?_repr (n : Nat) : natural? n.repr.toList = some n := by
  have hdigits : ∀ c ∈ Nat.toDigits 10 n, c.isDigit :=
    fun c hc => Nat.isDigit_of_mem_toDigits (by decide) le_rfl hc
  rw [Nat.repr_eq_ofList_toDigits, String.toList_ofList, natural?,
    if_pos ⟨Nat.toDigits_ne_nil, List.all_eq_true.mpr hdigits⟩, ← Nat.ofDigitChars_eq_foldl,
    Nat.ofDigitChars_ten_toDigits]

namespace InputFile

/-- The name ends in one of the accepted endings, ASCII letters of which may be written as
capitals. -/
def EndsAccepted (name : String) : Prop :=
  ∃ ending ∈ acceptedEndings, ∃ stem written : List Char,
    name.toList = stem ++ written ∧ written.map Char.toLower = ending.toList

theorem isAcceptedName_iff {name : String} : isAcceptedName name ↔ EndsAccepted name := by
  simp only [isAcceptedName, List.any_eq_true, Text.endsWith, Text.lower, String.toList_ofList,
    List.isSuffixOf_iff_suffix, List.suffix_map_iff]
  refine exists_congr fun ending => and_congr_right fun _ => ?_
  constructor
  · rintro ⟨written, ⟨stem, hname⟩, hending⟩
    exact ⟨stem, written, hname.symm, hending.symm⟩
  · rintro ⟨stem, written, hname, hending⟩
    exact ⟨written, ⟨stem, hname.symm⟩, hending.symm⟩

instance (name : String) : Decidable (EndsAccepted name) := decidable_of_iff _ isAcceptedName_iff

def acceptedCount (names : List String) : Nat := names.countP fun name => EndsAccepted name

theorem length_filter_isAccepted (files : List InputFile) :
    (files.filter isAccepted).length = acceptedCount (files.map name) := by
  rw [acceptedCount, List.countP_map, ← List.countP_eq_length_filter]
  refine List.countP_congr fun f _ => ?_
  rw [Function.comp_apply, decide_eq_true_iff]
  exact isAcceptedName_iff

/-- No rule has the id of an issue about the project. -/
theorem id_not_mem_of_contribution {f : InputFile} {i : Issue}
    (h : i ∈ f.contribution Catalog.rules) :
    i.id ∉ ["missing_manifest", "missing_gradle", "large_project"] := by
  have hrules : ∀ id ∈ Catalog.rules.map Rule.id,
      id ∉ ["missing_manifest", "missing_gradle", "large_project"] := by
    decide +kernel
  obtain ⟨-, text, -, r, hr, hi⟩ := mem_contribution.mp h
  rw [Rule.issue?_id hi]
  exact hrules r.id (List.mem_map_of_mem hr)

end InputFile

open InputFile (acceptedCount EndsAccepted)

namespace Shape

def findings (names : List String) : List Issue :=
  (if "AndroidManifest.xml" ∈ names then [] else [missingManifest]) ++
  (if ∃ name ∈ names, Text.endsWith name ".gradle" then [] else [missingGradle]) ++
  (if 100 < acceptedCount names then [large (acceptedCount names)] else [])

/-- Files of a kind that is always accepted are missing if no name is of that kind. -/
theorem isEmpty_files_iff {kind : FileKind}
    (haccepted : ∀ name, kind.holds name → InputFile.isAcceptedName name) (files : List InputFile) :
    ((ofFiles (files.filter InputFile.isAccepted)).files kind).isEmpty ↔
      ¬∃ name ∈ files.map InputFile.name, kind.holds name := by
  simp only [ofFiles, List.isEmpty_iff, List.map_eq_nil_iff, List.filter_eq_nil_iff,
    List.mem_filter, List.mem_map, not_exists, not_and, Bool.not_eq_true, and_imp]
  constructor
  · rintro hnone name ⟨f, hf, rfl⟩
    by_contra hholds
    rw [Bool.not_eq_false] at hholds
    exact absurd hholds (Bool.eq_false_iff.mp (hnone f hf (haccepted f.name hholds)))
  · exact fun hnone f hf _ => hnone f.name ⟨f, hf, rfl⟩

theorem issues_ofFiles (files : List InputFile) :
    (ofFiles (files.filter InputFile.isAccepted)).issues = findings (files.map InputFile.name) := by
  have hmanifest : ((ofFiles (files.filter InputFile.isAccepted)).files .manifest).isEmpty ↔
      "AndroidManifest.xml" ∉ files.map InputFile.name := by
    have haccepted : ∀ name, FileKind.manifest.holds name → InputFile.isAcceptedName name := by
      intro name hname
      rw [of_decide_eq_true hname]
      decide +kernel
    rw [isEmpty_files_iff haccepted]
    refine not_congr ⟨?_, fun h => ⟨_, h, by decide⟩⟩
    rintro ⟨name, hname, hholds⟩
    rwa [of_decide_eq_true hholds] at hname
  have hgradle : ((ofFiles (files.filter InputFile.isAccepted)).files .gradle).isEmpty ↔
      ¬∃ name ∈ files.map InputFile.name, Text.endsWith name ".gradle" := by
    refine isEmpty_files_iff (fun name hname => ?_) files
    exact List.any_eq_true.mpr ⟨_, FileKind.gradle.ending_mem, FileKind.endsWith_lower hname⟩
  have htotal : (ofFiles (files.filter InputFile.isAccepted)).totalFiles =
      acceptedCount (files.map InputFile.name) :=
    InputFile.length_filter_isAccepted files
  rw [issues, findings, htotal, largeProject]
  simp only [hmanifest, hgradle, ite_not]

/-- The issues about a project are told by the names of its files: each of the three is there once
or not at all, in this order, behind the issues of the files. -/
structure ToldByNames (names : List String) (issues : List Issue) : Prop where
  manifest : (issues.filter fun i => i.id = "missing_manifest").map Issue.severity =
    if "AndroidManifest.xml" ∈ names then [] else [.critical]
  gradle : (issues.filter fun i => i.id = "missing_gradle").map Issue.severity =
    if ∃ name ∈ names, Text.endsWith name ".gradle" then [] else [.warning]
  large :
    (issues.filter fun i => i.id = "large_project").map (fun i => (i.severity, i.description)) =
      if 100 < acceptedCount names then
        [(.info, "Project contains " ++ (acceptedCount names).repr ++ " files")]
      else []
  decimal : Text.natural? (acceptedCount names).repr.toList = some (acceptedCount names)
  determined : issues.filter (·.isProjectLevel) = findings names
  in_order : ((issues.filter (·.isProjectLevel)).map Issue.id).Sublist
    ["missing_manifest", "missing_gradle", "large_project"]
  behind : ∃ raised, issues = raised ++ issues.filter (·.isProjectLevel) ∧
    ∀ i ∈ raised, i.isProjectLevel = false
  no_occurrences : ∀ i ∈ issues, i.isProjectLevel → i.occurrences = 0

theorem filter_findings_manifest (names : List String) :
    ((findings names).filter fun i => i.id = "missing_manifest").map Issue.severity =
      if "AndroidManifest.xml" ∈ names then [] else [.critical] := by
  unfold findings
  split_ifs <;> rfl

theorem filter_findings_gradle (names : List String) :
    ((findings names).filter fun i => i.id = "missing_gradle").map Issue.severity =
      if ∃ name ∈ names, Text.endsWith name ".gradle" then [] else [.warning] := by
  unfold findings
  split_ifs <;> rfl

theorem filter_findings_large (names : List String) :
    ((findings names).filter fun i => i.id = "large_project").map
        (fun i => (i.severity, i.description)) =
      if 100 < acceptedCount names then
        [(.info, "Project contains " ++ (acceptedCount names).repr ++ " files")]
      else [] := by
  unfold findings
  split_ifs <;> rfl

theorem toldByNames {files : List InputFile} {raised : List Issue}
    (hraised : ∀ i ∈ raised, i.isProjectLevel = false ∧
      i.id ∉ ["missing_manifest", "missing_gradle", "large_project"]) :
    ToldByNames (files.map InputFile.name)
      (raised ++ (ofFiles (files.filter InputFile.isAccepted)).issues) := by
  have hproject : ∀ i ∈ (ofFiles (files.filter InputFile.isAccepted)).issues,
      i.isProjectLevel ∧ i.occurrences = 0 :=
    fun i hi => isProjectLevel_of_mem_issues hi
  have hsublist := (ofFiles (files.filter InputFile.isAccepted)).issues_sublist.map Issue.id
  rw [issues_ofFiles] at hproject hsublist ⊢
  generalize files.map InputFile.name = names at *
  have hid {id : String} (h : id ∈ ["missing_manifest", "missing_gradle", "large_project"]) :
      (raised ++ findings names).filter (fun i => i.id = id) =
        (findings names).filter fun i => i.id = id := by
    rw [List.filter_append, List.append_left_eq_self, List.filter_eq_nil_iff]
    intro i hi hsame
    rw [← of_decide_eq_true hsame] at h
    exact (hraised i hi).2 h
  have hlevel : (raised ++ findings names).filter (·.isProjectLevel) = findings names := by
    rw [List.filter_append, List.filter_eq_self.mpr fun i hi => (hproject i hi).1,
      List.append_left_eq_self, List.filter_eq_nil_iff]
    exact fun i hi => Bool.eq_false_iff.mp (hraised i hi).1
  constructor
  case manifest => rw [hid (by simp), filter_findings_manifest]
  case gradle => rw [hid (by simp), filter_findings_gradle]
  case large => rw [hid (by simp), filter_findings_large]
  case decimal => exact Text.natural?_repr _
  case determined => exact hlevel
  case in_order => rwa [hlevel]
  case behind =>
    rw [hlevel]
    exact ⟨raised, rfl, fun i hi => (hraised i hi).1⟩
  case no_occurrences =>
    intro i hi hlevel
    rcases List.mem_append.mp hi with hi | hi
    · exact absurd hlevel (Bool.eq_false_iff.mp (hraised i hi).1)
    · exact (hproject i hi).2

end Shape

namespace Analysis

/-- Of whatever files there are, what is said about the project is told by their names alone. -/
theorem project_told_by_names {files : List InputFile} (some_file : files ≠ []) :
    ∃ a, (ofFiles? Catalog.rules files).value = some a ∧
      Shape.ToldByNames (files.map InputFile.name) a.issues := by
  refine ⟨_, value_ofFiles?_of_ne_nil Catalog.rules some_file, Shape.toldByNames fun i hi => ?_⟩
  obtain ⟨f, -, hf⟩ := List.mem_flatMap.mp hi
  obtain ⟨accepted, text, -, r, -, hr⟩ := InputFile.mem_contribution.mp hf
  exact ⟨InputFile.not_isProjectLevel_of_issue? accepted hr,
    InputFile.id_not_mem_of_contribution hf⟩

/-- A manifest in capitals is none, a Gradle file counts though it cannot be read. -/
theorem project_told_by_names_capitals :
    let files : List InputFile :=
      [⟨"ANDROIDMANIFEST.XML", none, some "<manifest/>".toUTF8⟩, ⟨"build.gradle", none, none⟩]
    files ≠ [] ∧ ∃ a, (ofFiles? Catalog.rules files).value = some a ∧
      (a.issues.filter fun i => i.id = "missing_manifest").map Issue.severity = [.critical] ∧
      (a.issues.filter fun i => i.id = "missing_gradle").map Issue.severity = [] := by
  intro files
  have some_file : files ≠ [] := List.cons_ne_nil _ _
  obtain ⟨a, ha, htold⟩ := project_told_by_names some_file
  refine ⟨some_file, a, ha, ?_, ?_⟩
  · rw [htold.manifest, if_neg (by decide +kernel)]
  · rw [htold.gradle, if_pos (by decide +kernel)]

end Analysis

end MigrationAudit
