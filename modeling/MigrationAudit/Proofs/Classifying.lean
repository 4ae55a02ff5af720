import MigrationAudit.Proofs.Ascending
import MigrationAudit.Proofs.Kinds

namespace MigrationAudit

open FileKind

/-- What a pass over the files has put together: a bucket for each kind that has been met, and the
folders. -/
structure Sorting where
  buckets : FileKind → Option (List String)
  folders : List String

namespace Sorting

def start : Sorting := ⟨fun _ => none, []⟩

def kind? (name : String) : Option FileKind :=
  if Text.endsWith name ".java" then some .java
  else if Text.endsWith name ".kt" then some .kotlin
  else if Text.endsWith name ".xml" then some .xml
  else if Text.endsWith name ".gradle" then some .gradle
  else none

def push (s : Sorting) (kind : FileKind) (path : String) : Sorting :=
  { s with buckets := fun k =>
      if k = kind then some ((s.buckets k).getD [] ++ [path]) else s.buckets k }

def addFolder (s : Sorting) (f : InputFile) : Sorting :=
  match f.folder? with
  | some folder => { s with folders := insertText folder s.folders }
  | none => s

def add (s : Sorting) (f : InputFile) : Sorting :=
  let s := s.addFolder f
  match kind? f.name with
  | none => s
  | some kind =>
    let s := s.push kind f.path
    if kind = .xml ∧ f.name = manifestName then s.push .manifest f.path else s

def extended (bucket : Option (List String)) (paths : List String) : Option (List String) :=
  if paths.isEmpty then bucket else some (bucket.getD [] ++ paths)

variable {s : Sorting} {f : InputFile} {files : List InputFile} {kind : FileKind}

theorem kind?_eq (name : String) : kind? name = ofEnding? name := by
  rw [kind?, ofEnding?, told]
  simp only [List.find?_cons, List.find?_nil, ending]
  split_ifs <;> simp [*]

theorem extended_append (bucket : Option (List String)) (front back : List String) :
    extended (extended bucket front) back = extended bucket (front ++ back) := by
  cases front with
  | nil => rfl
  | cons a front => cases back <;> simp [extended]

theorem buckets_addFolder : (s.addFolder f).buckets = s.buckets := by
  unfold addFolder
  cases f.folder? <;> rfl

theorem holds_iff_of_ne {name : String} (h : name ≠ manifestName) :
    kind.holds name ↔ ofEnding? name = some kind := by
  cases kind with
  | manifest =>
    refine iff_of_false (mt of_decide_eq_true h) fun hsome => ?_
    exact absurd (ofEnding?_eq_some_iff.mp hsome).1 (by decide)
  | java | kotlin | xml | gradle => exact holds_iff (by decide)

theorem buckets_push {path : String} {kind' : FileKind} : (s.push kind' path).buckets kind =
    extended (s.buckets kind) (if kind = kind' then [path] else []) := by
  change (if kind = kind' then _ else _) = _
  split_ifs <;> rfl

/-- A file goes into the buckets of the kinds that it is of. -/
theorem buckets_add : (s.add f).buckets kind =
    extended (s.buckets kind) (if kind.holds f.name then [f.path] else []) := by
  rw [add, kind?_eq]
  by_cases hname : f.name = manifestName
  · have hxml : ofEnding? manifestName = some .xml := by decide +kernel
    simp only [hname, hxml, and_self, if_true, buckets_push, buckets_addFolder, extended_append]
    cases kind <;> rfl
  · simp only [holds_iff_of_ne hname]
    cases ofEnding? f.name with
    | none => simp [buckets_addFolder, extended]
    | some kind' =>
      simp only [hname, and_false, if_false, buckets_push, buckets_addFolder, Option.some_inj,
        eq_comm (a := kind)]

theorem folders_add :
    (s.add f).folders = f.folder?.elim s.folders fun folder => insertText folder s.folders := by
  have hfolder : (s.addFolder f).folders =
      f.folder?.elim s.folders fun folder => insertText folder s.folders := by
    unfold addFolder
    cases f.folder? <;> rfl
  rw [← hfolder, add]
  cases kind? f.name with
  | none => rfl
  | some kind =>
    change (if kind = .xml ∧ f.name = manifestName then
      ((s.addFolder f).push kind f.path).push .manifest f.path
      else (s.addFolder f).push kind f.path).folders = _
    split_ifs <;> rfl

theorem buckets_foldl : (files.foldl add s).buckets kind =
    extended (s.buckets kind) ((files.filter fun f => kind.holds f.name).map InputFile.path) := by
  induction files generalizing s with
  | nil => rfl
  | cons f files ih =>
    rw [List.foldl_cons, ih, buckets_add, extended_append, List.filter_cons]
    split_ifs <;> rfl

theorem mem_folders_foldl {folder : String} : folder ∈ (files.foldl add s).folders ↔
    folder ∈ s.folders ∨ ∃ f ∈ files, f.folder? = some folder := by
  induction files generalizing s with
  | nil => simp
  | cons f files ih =>
    rw [List.foldl_cons, ih, folders_add]
    cases hfolder : f.folder? with
    | none => simp [hfolder]
    | some other => simp [hfolder, mem_insertText, eq_comm, or_assoc, or_left_comm]

theorem ascending_foldl (h : s.folders.Pairwise (· < ·)) :
    (files.foldl add s).folders.Pairwise (· < ·) := by
  induction files generalizing s with
  | nil => exact h
  | cons f files ih =>
    refine ih ?_
    rw [folders_add]
    cases f.folder? with
    | none => exact h
    | some folder => exact pairwise_insertText h

end Sorting

/-- To sort the files one by one comes to the shape: the buckets are those of the kinds of which
there is a file, and the folders are the same. -/
theorem Shape.ofFiles_eq_sorting (files : List InputFile) :
    let s := files.foldl Sorting.add .start
    (ofFiles files).byKind = FileKind.all.filterMap (fun kind => (s.buckets kind).map (kind, ·)) ∧
      (ofFiles files).folders = s.folders := by
  intro s
  have hbucket (kind : FileKind) :
      s.buckets kind = Sorting.extended none ((ofFiles files).files kind) :=
    Sorting.buckets_foldl
  constructor
  · rw [byKind, List.filter_map, ← List.filterMap_eq_map', List.filterMap_filter]
    refine List.filterMap_congr fun kind _ => ?_
    rw [hbucket]
    cases h : (ofFiles files).files kind <;> simp [h, Sorting.extended]
  · have hsorted : s.folders.Pairwise fun x y => id x < id y := Sorting.ascending_foldl .nil
    refine eq_of_ascending ascending_folders hsorted fun folder => ?_
    rw [mem_folders, Sorting.mem_folders_foldl, Sorting.start]
    simp

end MigrationAudit
