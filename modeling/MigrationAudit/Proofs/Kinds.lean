import MigrationAudit.Proofs.Growing
import Mathlib.Algebra.GroupWithZero.Nat
import Mathlib.Data.List.Infix

namespace MigrationAudit

namespace FileKind

def told : List FileKind := [java, kotlin, xml, gradle]

def ending : FileKind → String
  | java => ".java"
  | kotlin => ".kt"
  | xml | manifest => ".xml"
  | gradle => ".gradle"

def ofEnding? (name : String) : Option FileKind :=
  told.find? fun kind => Text.endsWith name kind.ending

end FileKind

open FileKind

namespace InputFile

def isJson (f : InputFile) : Bool := Text.endsWith (Text.lower f.name) ".json"

/-- Whether the ending of a file tells a kind, but only in lower case. -/
def isOddlySpelled (f : InputFile) : Bool :=
  (ofEnding? (Text.lower f.name)).isSome && (ofEnding? f.name).isNone

end InputFile

/-- No name ends in two of the accepted endings. -/
theorem InputFile.ending_unique {s e e' : String} (he : e ∈ acceptedEndings)
    (he' : e' ∈ acceptedEndings) (h : Text.endsWith s e) (h' : Text.endsWith s e') : e = e' := by
  have hsuffix : e.toList <:+ s.toList := List.isSuffixOf_iff_suffix.mp h
  have hsuffix' : e'.toList <:+ s.toList := List.isSuffixOf_iff_suffix.mp h'
  have hnone : ∀ e ∈ acceptedEndings, ∀ e' ∈ acceptedEndings, e.toList <:+ e'.toList → e = e' := by
    decide +kernel
  rcases List.suffix_or_suffix_of_suffix hsuffix hsuffix' with hle | hle
  · exact hnone e he e' he' hle
  · exact (hnone e' he' e he hle).symm

namespace FileKind

variable {name : String} {kind kind' : FileKind}

theorem holds_eq (h : kind ∈ told) (name : String) :
    kind.holds name = Text.endsWith name kind.ending := by
  cases kind with
  | manifest => exact absurd h (by decide)
  | java | kotlin | xml | gradle => rfl

theorem ending_mem (kind : FileKind) : kind.ending ∈ InputFile.acceptedEndings := by
  cases kind <;> decide

theorem lower_ending (kind : FileKind) : Text.lower kind.ending = kind.ending := by
  cases kind <;> decide +kernel

theorem ending_inj (h : kind ∈ told) (h' : kind' ∈ told) (he : kind.ending = kind'.ending) :
    kind = kind' := by
  have hinj : ∀ kind ∈ told, ∀ kind' ∈ told, kind.ending = kind'.ending → kind = kind' := by
    decide +kernel
  exact hinj kind h kind' h' he

theorem ofEnding?_eq_some_iff :
    ofEnding? name = some kind ↔ kind ∈ told ∧ Text.endsWith name kind.ending := by
  have hfound {kind : FileKind} (h : ofEnding? name = some kind) :
      kind ∈ told ∧ Text.endsWith name kind.ending := by
    have hends := List.find?_some h
    exact ⟨List.mem_of_find?_eq_some h, hends⟩
  refine ⟨hfound, fun ⟨htold, hends⟩ => ?_⟩
  have hsome : (ofEnding? name).isSome := List.find?_isSome.mpr ⟨kind, htold, hends⟩
  obtain ⟨kind', h⟩ := Option.isSome_iff_exists.mp hsome
  obtain ⟨htold', hends'⟩ := hfound h
  have heq := InputFile.ending_unique kind.ending_mem kind'.ending_mem hends hends'
  rw [h, ending_inj htold htold' heq]

theorem holds_iff (h : kind ∈ told) : kind.holds name ↔ ofEnding? name = some kind := by
  rw [holds_eq h, ofEnding?_eq_some_iff, and_iff_right h]

theorem endsWith_lower (h : Text.endsWith name kind.ending) :
    Text.endsWith (Text.lower name) kind.ending := by
  have hlower := Text.endsWith_lower h
  rwa [lower_ending] at hlower

/-- A kind that is told as the name stands is also told in lower case. -/
theorem ofEnding?_lower (h : ofEnding? name = some kind) :
    ofEnding? (Text.lower name) = some kind := by
  obtain ⟨htold, hends⟩ := ofEnding?_eq_some_iff.mp h
  exact ofEnding?_eq_some_iff.mpr ⟨htold, endsWith_lower hends⟩

/-- Each name is of one of the kinds at most. -/
theorem countP_holds (name : String) :
    told.countP (fun kind => kind.holds name) = if (ofEnding? name).isSome then 1 else 0 := by
  have hcongr : told.countP (fun kind => kind.holds name) =
      told.countP fun kind => decide (ofEnding? name = some kind) :=
    List.countP_congr fun kind hkind => by rw [holds_iff hkind, decide_eq_true_iff]
  rw [hcongr]
  cases h : ofEnding? name with
  | none => rfl
  | some kind =>
    obtain ⟨htold, -⟩ := ofEnding?_eq_some_iff.mp h
    cases kind with
    | manifest => exact absurd htold (by decide)
    | java | kotlin | xml | gradle => rfl

end FileKind

namespace InputFile

variable {f : InputFile}

/-- An accepted file has the ending of a kind or of a JSON file, and not both. -/
theorem isJson_eq (accepted : f.isAccepted) :
    f.isJson = (ofEnding? (Text.lower f.name)).isNone := by
  cases h : ofEnding? (Text.lower f.name) with
  | some kind =>
    obtain ⟨-, hends⟩ := ofEnding?_eq_some_iff.mp h
    rw [isJson, Option.isNone_some, Bool.eq_false_iff]
    intro hjson
    have hending := ending_unique kind.ending_mem (by decide) hends hjson
    revert hending
    cases kind <;> decide
  | none =>
    obtain ⟨ending, hmem, hends⟩ := List.any_eq_true.mp accepted
    have hno (kind : FileKind) (hkind : kind ∈ told) :
        ¬Text.endsWith (Text.lower f.name) kind.ending :=
      fun hk => absurd (ofEnding?_eq_some_iff.mpr ⟨hkind, hk⟩) (by rw [h]; exact nofun)
    simp only [acceptedEndings, List.mem_cons, List.not_mem_nil, or_false] at hmem
    rcases hmem with rfl | rfl | rfl | rfl | rfl
    · exact absurd hends (hno .java (by decide))
    · exact absurd hends (hno .kotlin (by decide))
    · exact absurd hends (hno .xml (by decide))
    · exact absurd hends (hno .gradle (by decide))
    · exact hends

/-- An accepted file has the ending of a kind as its name stands, or only in lower case, or it is a
JSON file. -/
theorem spelled_once (accepted : f.isAccepted) :
    (if (ofEnding? f.name).isSome then 1 else 0) + (if f.isJson then 1 else 0) +
      (if f.isOddlySpelled then 1 else 0) = 1 := by
  rw [isJson_eq accepted, isOddlySpelled]
  cases h : ofEnding? f.name with
  | some kind => simp [ofEnding?_lower h]
  | none => cases ofEnding? (Text.lower f.name) <;> rfl

end InputFile

namespace Shape

/-- The buckets of the four kinds, the JSON files and the oddly spelled files make up all accepted
files. -/
theorem totalFiles_eq {files : List InputFile} (accepted : ∀ f ∈ files, f.isAccepted) :
    (FileKind.told.map fun kind => ((ofFiles files).files kind).length).sum +
        files.countP InputFile.isJson + files.countP InputFile.isOddlySpelled =
      (ofFiles files).totalFiles := by
  simp only [ofFiles, List.length_map, ← List.countP_eq_length_filter]
  induction files with
  | nil => rfl
  | cons f files ih =>
    obtain ⟨hf, hfiles⟩ := List.forall_mem_cons.mp accepted
    have hone := InputFile.spelled_once hf
    rw [← countP_holds] at hone
    have hrest := ih hfiles
    simp only [told, List.map_cons, List.map_nil, List.sum_cons, List.sum_nil, List.countP_cons,
      List.countP_nil, List.length_cons] at hone hrest ⊢
    omega

theorem missingGradle_mem_iff {s : Shape} : missingGradle ∈ s.issues ↔ s.files .gradle = [] := by
  have hmanifest : missingGradle ≠ missingManifest := by decide
  have hlarge : missingGradle ≠ large s.totalFiles :=
    fun h => absurd (congrArg Issue.id h) (by simp [missingGradle, large])
  unfold issues
  split_ifs <;> simp_all

end Shape

namespace Analysis

theorem missingGradle_mem_iff {rules : List Rule} {files : List InputFile} :
    Shape.missingGradle ∈ (ofFiles rules files).issues ↔
      ∀ f ∈ files, ¬Text.endsWith f.name ".gradle" := by
  have hshape : Shape.missingGradle ∈ (ofFiles rules files).issues ↔
      Shape.missingGradle ∈ (ofFiles rules files).shape.issues := by
    rw [ofFiles, List.mem_append, or_iff_right]
    intro h
    obtain ⟨f, -, hf⟩ := List.mem_flatMap.mp h
    obtain ⟨accepted, text, -, r, -, hr⟩ := InputFile.mem_contribution.mp hf
    exact absurd (InputFile.not_isProjectLevel_of_issue? accepted hr) (by decide)
  rw [hshape, Shape.missingGradle_mem_iff]
  simp only [ofFiles, Shape.ofFiles, List.map_eq_nil_iff, List.filter_eq_nil_iff, List.mem_filter]
  constructor
  · intro h f hf hends
    have accepted : f.isAccepted :=
      List.any_eq_true.mpr ⟨gradle.ending, gradle.ending_mem, endsWith_lower hends⟩
    exact h f ⟨hf, accepted⟩ hends
  · intro h f hf
    exact h f hf.1

/-- What is said about the Gradle files, and what is counted, goes by the endings as they are
spelled. -/
theorem kinds_as_spelled (rules : List Rule) {files : List InputFile} (some_file : files ≠ []) :
    ∃ a, (ofFiles? rules files).value = some a ∧
      (∀ kind ∈ told, a.shape.files kind =
        ((files.filter InputFile.isAccepted).filter
          fun f => kind.holds f.name).map InputFile.path) ∧
      (∀ f ∈ files, f.isAccepted → ∀ kind, ofEnding? (Text.lower f.name) = some kind →
        (Text.endsWith f.name kind.ending → ∀ kind' ∈ told, kind'.holds f.name ↔ kind' = kind) ∧
        (¬Text.endsWith f.name kind.ending → ∀ kind' ∈ told, ¬kind'.holds f.name)) ∧
      (told.map fun kind => (a.shape.files kind).length).sum +
          (files.filter InputFile.isAccepted).countP InputFile.isJson +
          (files.filter InputFile.isAccepted).countP InputFile.isOddlySpelled = a.shape.totalFiles ∧
      (Shape.missingGradle ∈ a.issues ↔ ∀ f ∈ files, ¬Text.endsWith f.name ".gradle") := by
  refine ⟨_, value_ofFiles?_of_ne_nil rules some_file, fun _ _ => rfl, ?_,
    Shape.totalFiles_eq fun f hf => (List.mem_filter.mp hf).2, missingGradle_mem_iff⟩
  intro f _ _ kind hkind
  obtain ⟨htold, -⟩ := ofEnding?_eq_some_iff.mp hkind
  constructor
  · intro hends kind' hkind'
    rw [holds_iff hkind', ofEnding?_eq_some_iff.mpr ⟨htold, hends⟩, Option.some_inj]
    exact eq_comm
  · intro hends kind' hkind' hholds
    rw [holds_iff hkind'] at hholds
    have heq : kind' = kind := Option.some.inj ((ofEnding?_lower hholds).symm.trans hkind)
    rw [heq] at hholds
    exact hends (ofEnding?_eq_some_iff.mp hholds).2

/-- A file that is spelled as usual. -/
theorem kinds_as_spelled_build_gradle :
    let files : List InputFile := [⟨"build.gradle", none, none⟩]
    files ≠ [] ∧ ∃ a, (ofFiles? Catalog.rules files).value = some a ∧
      a.shape.files .gradle = ["build.gradle"] ∧ Shape.missingGradle ∉ a.issues := by
  intro files
  have some_file : files ≠ [] := List.cons_ne_nil _ _
  obtain ⟨a, ha, hkinds, -, -, hmissing⟩ := kinds_as_spelled Catalog.rules some_file
  refine ⟨some_file, a, ha, ?_, fun hmem => ?_⟩
  · rw [hkinds .gradle (by decide)]
    decide +kernel
  · exact hmissing.mp hmem _ List.mem_cons_self (by decide)

/-- With their endings in capitals a Gradle file and a Java file are accepted and in no bucket, and
the Gradle file is reported to be missing. -/
theorem kinds_missed_in_capitals :
    let files : List InputFile :=
      [⟨"AndroidManifest.xml", none, some "<manifest/>".toUTF8⟩,
        ⟨"build.GRADLE", none, some "targetSdk = 35".toUTF8⟩,
        ⟨"Main.JAVA", none, some "class Main {}".toUTF8⟩]
    ∃ a, (ofFiles? Catalog.rules files).value = some a ∧
      a.analyzedFiles = ["AndroidManifest.xml", "build.GRADLE", "Main.JAVA"] ∧
      ofEnding? (Text.lower "build.GRADLE") = some .gradle ∧ a.shape.files .gradle = [] ∧
      ofEnding? (Text.lower "Main.JAVA") = some .java ∧ a.shape.files .java = [] ∧
      (told.map fun kind => (a.shape.files kind).length).sum + files.countP InputFile.isJson = 1 ∧
      a.shape.totalFiles = 3 ∧ Shape.missingGradle ∈ a.issues := by
  intro files
  refine ⟨_, value_ofFiles?_of_ne_nil _ (List.cons_ne_nil _ _), by decide +kernel,
    by decide +kernel, by decide +kernel, by decide +kernel, by decide +kernel, by decide +kernel,
    by decide +kernel, ?_⟩
  exact missingGradle_mem_iff.mpr (by decide +kernel)

end Analysis

end MigrationAudit
