import MigrationAudit.Proofs.Ascending
import MigrationAudit.Proofs.Contribution
import MigrationAudit.Proofs.Isolation

namespace MigrationAudit

theorem Tally.ofIssues_perm {issues issues' : List Issue} (h : issues.Perm issues') :
    ofIssues issues = ofIssues issues' := by
  simp only [ofIssues, h.countP_eq]

namespace Shape

variable {files files' : List InputFile} (h : files.Perm files')
include h

theorem files_perm (kind : FileKind) :
    ((ofFiles files).files kind).Perm ((ofFiles files').files kind) :=
  (h.filter _).map _

theorem folders_perm : (ofFiles files).folders = (ofFiles files').folders := by
  have hascending (files : List InputFile) :
      (ofFiles files).folders.Pairwise fun a b => id a < id b := ascending_folders
  refine eq_of_ascending (hascending files) (hascending files') ?_
  intro folder
  rw [mem_folders, mem_folders]
  exact exists_congr fun f => and_congr_left fun _ => h.mem_iff

theorem issues_perm : (ofFiles files).issues = (ofFiles files').issues :=
  issues_congr h.length_eq fun kind => by rw [(files_perm h kind).isEmpty_eq]

end Shape

namespace Analysis

def blocks (rules : List Rule) (files : List InputFile) : List (List Issue) :=
  (files.filter InputFile.isAccepted).map (InputFile.contribution rules)

/-- Files that are not accepted have no block. -/
theorem issues_eq_blocks (rules : List Rule) (files : List InputFile) :
    (ofFiles rules files).issues =
      (blocks rules files).flatten ++ (ofFiles rules files).shape.issues := by
  have hblocks : blocks rules files =
      (files.filter InputFile.isAccepted).map fun f => (f.issues rules).value :=
    List.map_congr_left fun f hf => by rw [InputFile.contribution, if_pos (List.mem_filter.mp hf).2]
  rw [hblocks, InputFile.flatten_issues]
  rfl

/-- Analyses of the same files in another order: only the order in which files are listed
differs. -/
structure SameButForOrder (rules : List Rule) (files files' : List InputFile) (a b : Analysis) :
    Prop where
  tally : a.tally = b.tally
  score : a.score = b.score
  band : Band.ofScore a.score = Band.ofScore b.score
  totalFiles : a.shape.totalFiles = b.shape.totalFiles
  folders : a.shape.folders = b.shape.folders
  filesOfKind : ∀ kind, (a.shape.files kind).Perm (b.shape.files kind)
  findings : a.shape.issues = b.shape.issues
  issues_left : a.issues = (blocks rules files).flatten ++ a.shape.issues
  issues_right : b.issues = (blocks rules files').flatten ++ b.shape.issues
  blocks_perm : (blocks rules files).Perm (blocks rules files')

theorem sameButForOrder_ofFiles (rules : List Rule) {files files' : List InputFile}
    (h : (files.filter InputFile.isAccepted).Perm (files'.filter InputFile.isAccepted)) :
    SameButForOrder rules files files' (ofFiles rules files) (ofFiles rules files') := by
  have hblocks : (blocks rules files).Perm (blocks rules files') := h.map _
  have hfindings : (ofFiles rules files).shape.issues = (ofFiles rules files').shape.issues :=
    Shape.issues_perm h
  have hissues : (ofFiles rules files).issues.Perm (ofFiles rules files').issues := by
    rw [issues_eq_blocks, issues_eq_blocks, hfindings]
    exact hblocks.flatten.append_right _
  have htally : (ofFiles rules files).tally = (ofFiles rules files').tally :=
    Tally.ofIssues_perm hissues
  have hscore : (ofFiles rules files).score = (ofFiles rules files').score := by
    rw [score, score, htally]
  exact {
    tally := htally
    score := hscore
    band := congrArg Band.ofScore hscore
    totalFiles := h.length_eq
    folders := Shape.folders_perm h
    filesOfKind := Shape.files_perm h
    findings := hfindings
    issues_left := issues_eq_blocks rules files
    issues_right := issues_eq_blocks rules files'
    blocks_perm := hblocks }

/-- The order of the files does not matter to what an analysis says about them, and files that are
not accepted do not matter at all. -/
theorem reordered_files (rules : List Rule) (files files' : List InputFile) (some_file : files ≠ [])
    (some_file' : files' ≠ [])
    (same : (files.filter InputFile.isAccepted).Perm (files'.filter InputFile.isAccepted)) :
    ∃ a b, (ofFiles? rules files).value = some a ∧ (ofFiles? rules files').value = some b ∧
      SameButForOrder rules files files' a b :=
  ⟨_, _, value_ofFiles?_of_ne_nil rules some_file, value_ofFiles?_of_ne_nil rules some_file',
    sameButForOrder_ofFiles rules same⟩

/-- A file that is there twice goes elsewhere, and other files come and go. -/
theorem reordered_files_twice :
    let java : InputFile := ⟨"A.java", some "app/A.java", some "Camera2".toUTF8⟩
    let kotlin : InputFile := ⟨"B.kt", some "lib/B.kt", none⟩
    let image : InputFile := ⟨"logo.png", none, none⟩
    let files := [java, image, kotlin, java]
    let files' := [kotlin, java, java, image, image]
    files ≠ [] ∧ files' ≠ [] ∧
      (files.filter InputFile.isAccepted).Perm (files'.filter InputFile.isAccepted) ∧
      ∃ a b, (ofFiles? Catalog.rules files).value = some a ∧
        (ofFiles? Catalog.rules files').value = some b ∧
        SameButForOrder Catalog.rules files files' a b := by
  intro java kotlin image files files'
  have hjava : java.isAccepted := by decide +kernel
  have hkotlin : kotlin.isAccepted := by decide +kernel
  have himage : ¬image.isAccepted := by decide +kernel
  have same : (files.filter InputFile.isAccepted).Perm (files'.filter InputFile.isAccepted) := by
    simpa [files, files', hjava, hkotlin, himage] using List.Perm.swap kotlin java [java]
  exact ⟨List.cons_ne_nil _ _, List.cons_ne_nil _ _, same,
    reordered_files _ _ _ (List.cons_ne_nil _ _) (List.cons_ne_nil _ _) same⟩

end Analysis

end MigrationAudit
