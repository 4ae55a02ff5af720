import MigrationAudit.Proofs.Contribution
import MigrationAudit.Proofs.Decoding

namespace MigrationAudit

namespace InputFile

def withContent (f : InputFile) (content : Option ByteArray) : InputFile := { f with content }

def withoutPath (f : InputFile) : InputFile := { f with relativePath := none }

theorem isAccepted_withContent (content : Option ByteArray) (f : InputFile) :
    (f.withContent content).isAccepted = f.isAccepted := rfl

theorem isAccepted_withoutPath (f : InputFile) : f.withoutPath.isAccepted = f.isAccepted := rfl

theorem filter_withContent (content : Option ByteArray) (files : List InputFile) :
    (files.map (·.withContent content)).filter isAccepted =
      (files.filter isAccepted).map (·.withContent content) := by
  simp only [List.filter_map, Function.comp_def, isAccepted_withContent]

theorem filter_withoutPath (files : List InputFile) :
    (files.map withoutPath).filter isAccepted = (files.filter isAccepted).map withoutPath := by
  simp only [List.filter_map, Function.comp_def, isAccepted_withoutPath]

theorem contribution_congr {rules : List Rule} {f g : InputFile} (hname : f.name = g.name)
    (htext : f.text? = g.text?) : f.contribution rules = g.contribution rules := by
  simp only [contribution, value_issues, isAccepted, hname, htext]

end InputFile

namespace Shape

/-- The shape has nothing to do with what is in the files. -/
theorem ofFiles_withContent (content : Option ByteArray) (files : List InputFile) :
    ofFiles (files.map (·.withContent content)) = ofFiles files := by
  have holds (kind : FileKind) :
      ((files.map (·.withContent content)).filter fun f => kind.holds f.name).map InputFile.path =
        (files.filter fun f => kind.holds f.name).map InputFile.path := by
    rw [List.filter_map, List.map_map]
    rfl
  have folders : (files.map (·.withContent content)).filterMap InputFile.folder? =
      files.filterMap InputFile.folder? := by
    rw [List.filterMap_map]
    rfl
  simp only [ofFiles, List.length_map, holds, folders]

theorem issues_congr {s t : Shape} (total : s.totalFiles = t.totalFiles)
    (empty : ∀ kind, (s.files kind).isEmpty = (t.files kind).isEmpty) : s.issues = t.issues := by
  unfold issues
  rw [total, empty, empty]

/-- What is said about the project hangs on the names alone. -/
theorem issues_withoutPath (files : List InputFile) :
    (ofFiles (files.map InputFile.withoutPath)).issues = (ofFiles files).issues := by
  apply issues_congr
  · exact List.length_map _
  · intro kind
    simp only [ofFiles, List.filter_map, List.isEmpty_map]
    rfl

end Shape

namespace Analysis

section

variable (rules : List Rule) (files : List InputFile)

theorem shape_withContent (content : Option ByteArray) :
    (ofFiles rules (files.map (·.withContent content))).shape = (ofFiles rules files).shape := by
  simp only [ofFiles, InputFile.filter_withContent, Shape.ofFiles_withContent]

theorem analyzedFiles_withContent (content : Option ByteArray) :
    (ofFiles rules (files.map (·.withContent content))).analyzedFiles =
      (ofFiles rules files).analyzedFiles := by
  simp only [ofFiles, InputFile.filter_withContent, List.map_map]
  rfl

theorem issues_withoutPath :
    (ofFiles rules (files.map InputFile.withoutPath)).issues = (ofFiles rules files).issues := by
  have contributions : (fun f : InputFile => f.withoutPath.contribution rules) =
      InputFile.contribution rules := by
    funext f
    exact InputFile.contribution_congr rfl rfl
  simp only [ofFiles, InputFile.filter_withoutPath, List.flatMap_map, Shape.issues_withoutPath,
    contributions]

theorem analyzedFiles_withoutPath :
    (ofFiles rules (files.map InputFile.withoutPath)).analyzedFiles =
      (ofFiles rules files).analyzedFiles := by
  simp only [ofFiles, InputFile.filter_withoutPath, List.map_map]
  rfl

end

end Analysis

/-- How far one file reaches in an analysis of several: its text no further than a block of issues
of its own, its path no further than the shape. -/
structure Isolation (rules : List Rule) (files : List InputFile) (a : Analysis) : Prop where
  blocks : a.issues = (files.map (InputFile.contribution rules)).flatten ++ a.shape.issues
  /-- Other content changes the block of that file alone. Without text there is nothing in it. -/
  content : ∀ k f content, files[k]? = some f → ∃ b,
    (Analysis.ofFiles? rules (files.set k (f.withContent content))).value = some b ∧
      b.shape = a.shape ∧ b.analyzedFiles = a.analyzedFiles ∧
      b.issues = ((files.map (InputFile.contribution rules)).set k
        ((f.withContent content).contribution rules)).flatten ++ a.shape.issues ∧
      ((∀ bytes ∈ content, ¬ bytes.IsValidUTF8) → (f.withContent content).contribution rules = [])
  paths : ∀ moved, moved.map InputFile.withoutPath = files.map InputFile.withoutPath → ∃ b,
    (Analysis.ofFiles? rules moved).value = some b ∧ b.issues = a.issues ∧
      b.analyzedFiles = a.analyzedFiles ∧ b.tally = a.tally ∧ b.score = a.score
  mark : ∀ k f (text : String), files[k]? = some f → f.content = some text.toUTF8 →
    text.toList.head? ≠ some Text.byteOrderMark →
    (Analysis.ofFiles? rules (files.set k
      (f.withContent (some (Text.markBytes ++ text.toUTF8))))).value = some a

namespace Analysis

section

variable {files : List InputFile} {k : Nat} {f : InputFile} (hf : files[k]? = some f)
include hf

theorem map_withContent_set (content : Option ByteArray) :
    (files.set k (f.withContent content)).map (·.withContent none) =
      files.map (·.withContent none) := by
  obtain ⟨hk, rfl⟩ := List.getElem?_eq_some_iff.mp hf
  -- Stripped of their content the old and the new file are one.
  have hsame : (files[k].withContent content).withContent none = files[k].withContent none := rfl
  rw [List.map_set, hsame, ← List.map_set, List.set_getElem_self]

theorem shape_set (rules : List Rule) (content : Option ByteArray) :
    (ofFiles rules (files.set k (f.withContent content))).shape = (ofFiles rules files).shape := by
  rw [← shape_withContent rules (files.set k _) none, map_withContent_set hf, shape_withContent]

theorem analyzedFiles_set (rules : List Rule) (content : Option ByteArray) :
    (ofFiles rules (files.set k (f.withContent content))).analyzedFiles =
      (ofFiles rules files).analyzedFiles := by
  rw [← analyzedFiles_withContent rules (files.set k _) none, map_withContent_set hf,
    analyzedFiles_withContent]

theorem issues_set (rules : List Rule) (content : Option ByteArray) :
    (ofFiles rules (files.set k (f.withContent content))).issues =
      ((files.map (InputFile.contribution rules)).set k
        ((f.withContent content).contribution rules)).flatten ++
        (ofFiles rules files).shape.issues := by
  rw [issues_eq_flatten, shape_set hf, List.map_set]

/-- Content that reads as the same text leads to the same analysis. -/
theorem ofFiles_set_of_text? (rules : List Rule) {content : Option ByteArray}
    (same : (f.withContent content).text? = f.text?) :
    ofFiles rules (files.set k (f.withContent content)) = ofFiles rules files := by
  have block : (f.withContent content).contribution rules = f.contribution rules :=
    InputFile.contribution_congr rfl same
  have issues : (ofFiles rules (files.set k (f.withContent content))).issues =
      (ofFiles rules files).issues := by
    obtain ⟨hk, rfl⟩ := List.getElem?_eq_some_iff.mp hf
    rw [issues_set hf, block, issues_eq_flatten, ← List.map_set, List.set_getElem_self]
  calc ofFiles rules (files.set k (f.withContent content))
      = ⟨(ofFiles rules files).shape, (ofFiles rules files).issues,
          (ofFiles rules files).analyzedFiles⟩ := by
        rw [← shape_set hf, ← issues, ← analyzedFiles_set hf]
    _ = ofFiles rules files := rfl

end

theorem isolation_ofFiles (rules : List Rule) {files : List InputFile} (some_file : files ≠ []) :
    Isolation rules files (ofFiles rules files) where
  blocks := issues_eq_flatten rules files
  content k f content hf := by
    have hset : files.set k (f.withContent content) ≠ [] := by simpa using some_file
    refine ⟨_, value_ofFiles?_of_ne_nil rules hset, shape_set hf rules content,
      analyzedFiles_set hf rules content, issues_set hf rules content, ?_⟩
    intro invalid
    apply InputFile.contribution_of_text?_eq_none
    cases content with
    | none => rfl
    | some bytes => exact Text.decode?_eq_none_iff.mpr (invalid bytes rfl)
  paths moved same := by
    have hmoved : moved ≠ [] := by
      rintro rfl
      exact some_file (by simpa using same.symm)
    have hissues : (ofFiles rules moved).issues = (ofFiles rules files).issues := by
      rw [← issues_withoutPath, same, issues_withoutPath]
    have hnames : (ofFiles rules moved).analyzedFiles = (ofFiles rules files).analyzedFiles := by
      rw [← analyzedFiles_withoutPath, same, analyzedFiles_withoutPath]
    have htally : (ofFiles rules moved).tally = (ofFiles rules files).tally := by
      rw [tally, tally, hissues]
    refine ⟨_, value_ofFiles?_of_ne_nil rules hmoved, hissues, hnames, htally, ?_⟩
    rw [score, score, htally]
  mark k f text hf hcontent unmarked := by
    have hset : files.set k (f.withContent (some (Text.markBytes ++ text.toUTF8))) ≠ [] := by
      simpa using some_file
    have same : (f.withContent (some (Text.markBytes ++ text.toUTF8))).text? = f.text? := by
      simp only [InputFile.text?, InputFile.withContent, hcontent, Option.bind_some,
        Text.decode?_markBytes_append, Text.decode?_toUTF8 unmarked]
    rw [value_ofFiles?_of_ne_nil rules hset, ofFiles_set_of_text? hf rules same]

/-- In an analysis of several files each one is on its own. -/
theorem files_isolated (rules : List Rule) (files : List InputFile) (some_file : files ≠ []) :
    ∃ a, (ofFiles? rules files).value = some a ∧ Isolation rules files a :=
  ⟨_, value_ofFiles?_of_ne_nil rules some_file, isolation_ofFiles rules some_file⟩

/-- The second of two files becomes unreadable, then moves, then gets a byte-order mark. -/
theorem files_isolated_pair :
    let manifest : InputFile := ⟨"AndroidManifest.xml", none, some "Camera2".toUTF8⟩
    let java : InputFile := ⟨"A.java", none, some "CameraX".toUTF8⟩
    [manifest, java] ≠ [] ∧ ∃ a, (ofFiles? Catalog.rules [manifest, java]).value = some a ∧
      (∃ b, (ofFiles? Catalog.rules [manifest, java.withContent none]).value = some b ∧
        b.shape = a.shape ∧
        b.issues = manifest.contribution Catalog.rules ++ a.shape.issues) ∧
      (∃ b, (ofFiles? Catalog.rules [manifest,
        { java with relativePath := some "app/A.java" }]).value = some b ∧ b.issues = a.issues) ∧
      (ofFiles? Catalog.rules [manifest,
        java.withContent (some (Text.markBytes ++ "CameraX".toUTF8))]).value = some a := by
  intro manifest java
  have some_file : [manifest, java] ≠ [] := List.cons_ne_nil _ _
  obtain ⟨a, ha, isolated⟩ := files_isolated Catalog.rules [manifest, java] some_file
  refine ⟨some_file, a, ha, ?_, ?_, ?_⟩
  · obtain ⟨b, hb, hshape, -, hissues, hnone⟩ := isolated.content 1 java none rfl
    rw [hnone (by simp)] at hissues
    exact ⟨b, hb, hshape, by simpa using hissues⟩
  · obtain ⟨b, hb, hissues, -⟩ :=
      isolated.paths [manifest, { java with relativePath := some "app/A.java" }] rfl
    exact ⟨b, hb, hissues⟩
  · exact isolated.mark 1 java "CameraX" rfl rfl (by decide)

end Analysis

end MigrationAudit
