import MigrationAudit.Proofs.Ascending
import MigrationAudit.Proofs.Kinds
import MigrationAudit.Proofs.Origin
import Mathlib.Data.List.TakeWhile

namespace MigrationAudit

namespace Text

variable {separator : Char} {text before after : List Char}

theorem ne_of_mem_reverse (h : separator ∉ text) : ∀ c ∈ text.reverse, decide (c ≠ separator) := by
  intro c hc
  rw [decide_eq_true_eq]
  rintro rfl
  exact h (List.mem_reverse.mp hc)

theorem splitLast?_append (h : separator ∉ after) :
    splitLast? separator (before ++ separator :: after) = some (before, after) := by
  have hne := ne_of_mem_reverse h
  rw [splitLast?, List.reverse_append, List.reverse_cons, List.append_assoc, List.singleton_append,
    List.dropWhile_append_of_pos hne, List.takeWhile_append_of_pos hne]
  simp

theorem splitLast?_eq_none (h : separator ∉ text) : splitLast? separator text = none := by
  rw [splitLast?, List.dropWhile_eq_nil_iff.mpr (ne_of_mem_reverse h)]

theorem splitLast?_eq_some_iff :
    splitLast? separator text = some (before, after) ↔
      text = before ++ separator :: after ∧ separator ∉ after := by
  refine ⟨fun h => ?_, fun ⟨htext, hafter⟩ => htext ▸ splitLast?_append hafter⟩
  by_cases hmem : separator ∈ text
  · obtain ⟨back, front, htext, hback⟩ := List.eq_append_cons_of_mem (List.mem_reverse.mpr hmem)
    obtain rfl : text = front.reverse ++ separator :: back.reverse := by
      simpa using congrArg List.reverse htext
    have hback' : separator ∉ back.reverse := mt List.mem_reverse.mp hback
    rw [splitLast?_append hback', Option.some_inj, Prod.mk.injEq] at h
    obtain ⟨rfl, rfl⟩ := h
    exact ⟨rfl, hback'⟩
  · rw [splitLast?_eq_none hmem] at h
    exact absurd h nofun

end Text

namespace InputFile

theorem folder?_eq_some_iff {f : InputFile} {folder : String} :
    f.folder? = some folder ↔
      folder ≠ "" ∧ ∃ last : String, '/' ∉ last.toList ∧ f.path = folder ++ "/" ++ last := by
  have hpath {last : String} : f.path = folder ++ "/" ++ last ↔
      f.path.toList = folder.toList ++ '/' :: last.toList := by
    rw [← String.toList_inj]
    simp
  constructor
  · intro h
    unfold folder? at h
    split at h
    · next c rest last hsplit =>
      obtain ⟨htext, hlast⟩ := Text.splitLast?_eq_some_iff.mp hsplit
      obtain rfl := Option.some.inj h
      refine ⟨by simp [← String.toList_inj], String.ofList last, by simpa using hlast, hpath.mpr ?_⟩
      simpa using htext
    · exact absurd h nofun
  · rintro ⟨hne, last, hlast, h⟩
    have hsplit := Text.splitLast?_eq_some_iff.mpr ⟨hpath.mp h, hlast⟩
    obtain ⟨c, rest, hfolder⟩ := List.exists_cons_of_ne_nil (mt String.toList_eq_nil_iff.mp hne)
    rw [folder?, hsplit, hfolder]
    simp [← hfolder]

end InputFile

open FileKind

namespace Shape

def merge (s t : Shape) : Shape where
  totalFiles := s.totalFiles + t.totalFiles
  files kind := s.files kind ++ t.files kind
  folders := s.folders.foldr insertText t.folders

theorem folders_append (a b : List InputFile) :
    (ofFiles (a ++ b)).folders = (ofFiles a).folders.foldr insertText (ofFiles b).folders := by
  have hwhole : (ofFiles (a ++ b)).folders.Pairwise fun x y => id x < id y := ascending_folders
  have hparts : ((ofFiles a).folders.foldr insertText (ofFiles b).folders).Pairwise
      fun x y => id x < id y := pairwise_foldr_insertText ascending_folders
  refine eq_of_ascending hwhole hparts fun folder => ?_
  rw [mem_foldr_insertText, mem_folders, mem_folders, mem_folders]
  simp only [List.mem_append, or_and_right, exists_or]

theorem ofFiles_append (a b : List InputFile) :
    ofFiles (a ++ b) = (ofFiles a).merge (ofFiles b) := by
  have htotal : (ofFiles (a ++ b)).totalFiles = (ofFiles a).totalFiles + (ofFiles b).totalFiles :=
    List.length_append
  have hfiles : (ofFiles (a ++ b)).files = fun kind =>
    (ofFiles a).files kind ++ (ofFiles b).files kind := by
    funext kind
    simp only [ofFiles, List.filter_append, List.map_append]
  calc ofFiles (a ++ b)
      = ⟨(ofFiles (a ++ b)).totalFiles, (ofFiles (a ++ b)).files, (ofFiles (a ++ b)).folders⟩ := rfl
    _ = (ofFiles a).merge (ofFiles b) := by rw [htotal, hfiles, folders_append, merge]

/-- A file that is listed under a kind that its ending tells. -/
structure Entry where
  kind : FileKind
  path : String
  position : Nat

def Entry.IsOf (e : Entry) (files : List InputFile) : Prop :=
  e.kind ∈ told ∧ ∃ f, files[e.position]? = some f ∧ Text.endsWith f.name e.kind.ending ∧
    f.path = e.path

def entries (files : List InputFile) : List Entry :=
  files.zipIdx.filterMap fun x => (ofEnding? x.1.name).map fun kind => ⟨kind, x.1.path, x.2⟩

section Entries

variable {files : List InputFile} {kind : FileKind}

theorem mem_entries {e : Entry} : e ∈ entries files ↔ e.IsOf files := by
  obtain ⟨kind, path, n⟩ := e
  simp only [entries, Entry.IsOf, List.mem_filterMap, List.mem_zipIdx_iff_getElem?,
    Option.map_eq_some_iff, Prod.exists, Entry.mk.injEq, ofEnding?_eq_some_iff]
  constructor
  · rintro ⟨f, n, hf, kind, ⟨htold, hends⟩, rfl, rfl, rfl⟩
    exact ⟨htold, f, hf, hends, rfl⟩
  · rintro ⟨htold, f, hf, hends, rfl⟩
    exact ⟨f, n, hf, kind, ⟨htold, hends⟩, rfl, rfl, rfl⟩

theorem pairwise_entries (files : List InputFile) :
    (entries files).Pairwise fun e e' => e.position < e'.position := by
  apply List.pairwise_filterMap.mpr
  apply (Origin.pairwise_snd_zipIdx files).imp
  intro x y hlt e he e' he'
  obtain ⟨kind, -, rfl⟩ := Option.map_eq_some_iff.mp he
  obtain ⟨kind', -, rfl⟩ := Option.map_eq_some_iff.mp he'
  exact hlt

theorem files_eq_entries (h : kind ∈ told) (files : List InputFile) :
    (ofFiles files).files kind = ((entries files).filter (·.kind = kind)).map Entry.path := by
  have hfiles : (ofFiles files).files kind =
      (files.zipIdx.filter fun x => kind.holds x.1.name).map fun x => x.1.path :=
    calc (ofFiles files).files kind
        = ((files.zipIdx.map Prod.fst).filter fun f => kind.holds f.name).map InputFile.path := by
          rw [List.zipIdx_map_fst, ofFiles]
      _ = _ := by
          rw [List.filter_map, List.map_map]
          rfl
  rw [hfiles, entries, List.filter_filterMap, List.map_filterMap, ← List.filterMap_eq_map,
    List.filterMap_filter]
  congr 1
  funext x
  have hholds : kind.holds x.1.name = decide (ofEnding? x.1.name = some kind) := by
    rw [Bool.eq_iff_iff, holds_iff h, decide_eq_true_iff]
  rw [hholds]
  cases ofEnding? x.1.name with
  | none => rfl
  | some other => by_cases hsame : other = kind <;> simp [Option.filter, hsame]

theorem manifest_sublist (files : List InputFile) :
    ((ofFiles files).files .manifest).Sublist ((ofFiles files).files .xml) := by
  apply List.Sublist.map
  apply List.monotone_filter_right
  intro f hmanifest
  have hname : f.name = manifestName := of_decide_eq_true hmanifest
  rw [hname]
  decide

end Entries

theorem mem_byKind {s : Shape} {kind : FileKind} {paths : List String} :
    (kind, paths) ∈ s.byKind ↔ paths = s.files kind ∧ paths ≠ [] := by
  have hall : kind ∈ FileKind.all := by cases kind <;> decide
  simp only [byKind, List.mem_filter, List.mem_map, Prod.mk.injEq]
  constructor
  · rintro ⟨⟨_, -, rfl, rfl⟩, hne⟩
    exact ⟨rfl, by simpa using hne⟩
  · rintro ⟨rfl, hne⟩
    exact ⟨⟨kind, hall, rfl, rfl⟩, by simpa using hne⟩

theorem map_fst_byKind_sublist (s : Shape) : (s.byKind.map Prod.fst).Sublist FileKind.all := by
  have hfst : (FileKind.all.map fun kind => (kind, s.files kind)).map Prod.fst = FileKind.all := by
    rw [List.map_map]
    exact List.map_id _
  rw [← hfst]
  exact List.filter_sublist.map _

/-- The shape tells of these files, and the entries make up its lists for the four kinds that
endings tell. -/
structure Describes (s : Shape) (files : List InputFile) (entries : List Entry) : Prop where
  totalFiles : s.totalFiles = files.length
  listed : ∀ kind ∈ told, s.files kind = (entries.filter (·.kind = kind)).map Entry.path
  mem_iff : ∀ e, e ∈ entries ↔ e.IsOf files
  /-- The entries are in the order of the files, and no two of them are of one file. -/
  ascending : entries.Pairwise fun e e' => e.position < e'.position
  manifest : (s.files .manifest).Sublist (s.files .xml)
  keys : (s.byKind.map Prod.fst).Sublist FileKind.all
  key_iff : ∀ kind paths, (kind, paths) ∈ s.byKind ↔ paths = s.files kind ∧ paths ≠ []
  folders : s.folders.Pairwise (· < ·)
  folder_iff : ∀ folder, folder ∈ s.folders ↔ folder ≠ "" ∧
    ∃ f ∈ files, ∃ last : String, '/' ∉ last.toList ∧ f.path = folder ++ "/" ++ last

/-- The shape of two lists of files together is that of each, merged, and the shape of any list of
files lists each of them under one kind at most. -/
theorem shape_of_parts :
    (∀ a b : List InputFile, ofFiles (a ++ b) = (ofFiles a).merge (ofFiles b)) ∧
    (∀ (s t : Shape) (folder : String),
      folder ∈ (s.merge t).folders ↔ folder ∈ s.folders ∨ folder ∈ t.folders) ∧
    ∀ files : List InputFile, ∃ entries, (ofFiles files).Describes files entries := by
  refine ⟨ofFiles_append, fun s t folder => mem_foldr_insertText, fun files => ⟨entries files, ?_⟩⟩
  exact {
    totalFiles := rfl
    listed := fun kind h => files_eq_entries h files
    mem_iff := fun e => mem_entries
    ascending := pairwise_entries files
    manifest := manifest_sublist files
    keys := map_fst_byKind_sublist _
    key_iff := fun kind paths => mem_byKind
    folders := ascending_folders
    folder_iff := fun folder => by
      rw [mem_folders]
      simp only [InputFile.folder?_eq_some_iff]
      constructor
      · rintro ⟨f, hf, hne, last⟩
        exact ⟨hne, f, hf, last⟩
      · rintro ⟨hne, f, hf, last⟩
        exact ⟨f, hf, hne, last⟩ }

/-- Nothing stands before a leading slash, and a doubled one is cut at its second half. -/
example : (ofFiles [⟨"A.java", some "/A.java", none⟩, ⟨"B.kt", some "a//B.kt", none⟩,
    ⟨"C.xml", some "a/b/", none⟩, ⟨"D.kt", none, none⟩]).folders = ["a/", "a/b"] := by
  decide +kernel

end Shape

end MigrationAudit
