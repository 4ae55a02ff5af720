import MigrationAudit.Proofs.Arrangement
import MigrationAudit.Proofs.ByteOrder
import MigrationAudit.Proofs.RelativePath
import MigrationAudit.Proofs.Targets
import Mathlib.Data.List.Basic

namespace MigrationAudit

namespace Discovery

def isKept (excludes : List Glob) (relative name : String) : Bool :=
  InputFile.isAcceptedName name && !excludes.any (·.covers relative)

theorem value_load?_eq (tree : FileTree) (excludes : List Glob) (relative : String) (p : Path) :
    (load? tree excludes relative p).value =
      if isKept excludes relative (p.fileName?.getD relative) then
        some ⟨p.fileName?.getD relative, some relative, (tree.read p).toOption⟩
      else none := by
  unfold load? isKept
  cases haccepted : InputFile.isAcceptedName (p.fileName?.getD relative) with
  | false => simp [haccepted]
  | true =>
    cases excludes.any (·.covers relative) with
    | true => simp [haccepted]
    | false => cases tree.read p <;> simp [haccepted, Except.toOption]

theorem value_load? {tree : FileTree} {p : Path} {content : Option ByteArray} (excludes : List Glob)
    (relative : String) (h : tree.node? p = some (.file content)) :
    (load? tree excludes relative p).value =
      if isKept excludes relative (p.fileName?.getD relative) then
        some ⟨p.fileName?.getD relative, some relative, content⟩
      else none := by
  have hread : (tree.read p).toOption = content := by
    cases content <;> simp [FileTree.read, h, Except.toOption]
  rw [value_load?_eq, hread]

def inputFile (tree : FileTree) (root : Path) (names : List String) : InputFile where
  name := names.getLast?.getD ""
  relativePath := some (Path.relativeText root.names names)
  content := (tree.root.find? names).bind Node.content?

/-- What a scan is to collect, by the names from the root of the file system on. -/
structure IsWanted (tree : FileTree) (root : Path) (paths : List Path) (excludes : List Glob)
    (names : List String) : Prop where
  isFile : ∃ content, tree.root.find? names = some (.file content)
  reached : ∃ target ∈ targets root paths, Reaches tree names target
  accepted : ∃ name, names.getLast? = some name ∧ InputFile.isAcceptedName name
  not_excluded : ∀ glob ∈ excludes, ¬glob.covers (Path.relativeText root.names names)

/-- All wanted files and no others, each once, in the order of the bytes of their paths. -/
structure IsListing (tree : FileTree) (root : Path) (paths : List Path) (excludes : List Glob)
    (found : List (List String)) : Prop where
  exact_files : ∀ names, names ∈ found ↔ IsWanted tree root paths excludes names
  once : found.Nodup
  ascending : (found.map (inputFile tree root)).Pairwise fun a b =>
    Text.bytes a.path < Text.bytes b.path

section Collect

variable {tree : FileTree} {root : Path} {paths : List Path}

theorem isDirect_of_mem_targets (hroot : root.IsDirect) (hpaths : ∀ p ∈ paths, ".." ∉ p.segments)
    {target : Path} (h : target ∈ targets root paths) : target.IsDirect := by
  unfold targets at h
  split at h
  · exact List.mem_singleton.mp h ▸ hroot
  · obtain ⟨p, hp, rfl⟩ := List.mem_map.mp h
    exact hroot.join (hpaths p hp)

def allFiles (tree : FileTree) (root : Path) (paths : List Path) : List Path :=
  (targets root paths).flatMap (filesUnder tree)

theorem value_collect (tree : FileTree) (root : Path) (paths : List Path) (excludes : List Glob) :
    (collect tree root paths excludes).value =
      match (targets root paths).find? (isMissing tree) with
      | some target => .error (.notFound target.text)
      | none => .ok ((arrange root (allFiles tree root paths)).filterMap fun e =>
          (load? tree excludes e.1 e.2).value) := by
  unfold collect
  rw [mapM_filesOf]
  cases (targets root paths).find? (isMissing tree) with
  | some target => rfl
  | none =>
    have hflatten : ((targets root paths).map (filesUnder tree)).flatten =
        allFiles tree root paths :=
      List.flatMap_def.symm
    simp only [Logged.value_bind, Logged.value_each, Logged.value_pure, hflatten,
      List.filterMap_map, Function.comp_def]

/-- A file that the targets lead to, with its path from the root. -/
structure IsFound (tree : FileTree) (root : Path) (paths : List Path)
    (e : String × Path) : Prop where
  direct : e.2.IsDirect
  isFile : tree.isFile e.2
  reached : ∃ target ∈ targets root paths, Reaches tree e.2.names target
  relative : e.1 = Path.relativeText root.names e.2.names

theorem isFound_of_mem_arrange (plain : tree.root.Plain) (hroot : root.IsDirect)
    (hpaths : ∀ p ∈ paths, ".." ∉ p.segments)
    (hexist : ∀ target ∈ targets root paths, isMissing tree target = false) {e : String × Path}
    (he : e ∈ arrange root (allFiles tree root paths)) : IsFound tree root paths e := by
  obtain ⟨hmem, hrelative⟩ := mem_of_mem_arrange he
  obtain ⟨target, htarget, hp⟩ := List.mem_flatMap.mp hmem
  obtain ⟨hdirect, hfile, hreach⟩ := reaches_of_mem_filesUnder plain
    (isDirect_of_mem_targets hroot hpaths htarget) (hexist target htarget) hp
  exact ⟨hdirect, hfile, ⟨target, htarget, hreach⟩, by rw [hrelative, hroot.relativeTo_eq hdirect]⟩

def isKeptAt (root : Path) (excludes : List Glob) (names : List String) : Bool :=
  isKept excludes (Path.relativeText root.names names) (names.getLast?.getD "")

namespace IsFound

variable {e : String × Path}

theorem find?_eq (h : IsFound tree root paths e) (plain : tree.root.Plain) :
    ∃ content, tree.root.find? e.2.names = some (.file content) ∧
      tree.node? e.2 = some (.file content) := by
  obtain ⟨content, hnode⟩ := FileTree.isFile_iff.mp h.isFile
  exact ⟨content, FileTree.find?_of_node? plain h.direct hnode, hnode⟩

theorem exists_name (h : IsFound tree root paths e) (plain : tree.root.Plain) :
    ∃ name, e.2.names.getLast? = some name := by
  have hne := FileTree.names_ne_nil_of_isFile plain h.direct h.isFile
  exact ⟨_, List.getLast?_eq_some_getLast hne⟩

theorem value_load? (h : IsFound tree root paths e) (plain : tree.root.Plain)
    (excludes : List Glob) :
    (load? tree excludes e.1 e.2).value =
      if isKeptAt root excludes e.2.names then some (inputFile tree root e.2.names) else none := by
  obtain ⟨content, hfind, hnode⟩ := h.find?_eq plain
  obtain ⟨name, hname⟩ := h.exists_name plain
  have hfile : e.2.fileName?.getD e.1 = name := by
    rw [h.direct.fileName?_eq, hname, Option.getD_some]
  rw [Discovery.value_load? excludes e.1 hnode, hfile, isKeptAt, inputFile, hname, hfind,
    ← h.relative]
  rfl

theorem isWanted_iff (h : IsFound tree root paths e) (plain : tree.root.Plain)
    (excludes : List Glob) :
    isKeptAt root excludes e.2.names ↔ IsWanted tree root paths excludes e.2.names := by
  obtain ⟨content, hfind, -⟩ := h.find?_eq plain
  obtain ⟨name, hname⟩ := h.exists_name plain
  rw [isKeptAt, isKept, hname, Option.getD_some, Bool.and_eq_true, Bool.not_eq_true',
    List.any_eq_false]
  constructor
  · rintro ⟨haccepted, hglobs⟩
    exact ⟨⟨content, hfind⟩, h.reached, ⟨name, hname, haccepted⟩, hglobs⟩
  · intro hwanted
    obtain ⟨name', hname', haccepted⟩ := hwanted.accepted
    obtain rfl : name = name' := Option.some.inj (hname.symm.trans hname')
    exact ⟨haccepted, hwanted.not_excluded⟩

end IsFound

def collected (tree : FileTree) (root : Path) (paths : List Path) (excludes : List Glob) :
    List (List String) :=
  ((arrange root (allFiles tree root paths)).map fun e => e.2.names).filter (isKeptAt root excludes)

section Listing

variable (plain : tree.root.Plain) (hroot : root.IsDirect) (hpaths : ∀ p ∈ paths, ".." ∉ p.segments)
  (hexist : ∀ target ∈ targets root paths, isMissing tree target = false) (excludes : List Glob)

include plain hroot hpaths hexist

theorem value_collect_eq_ok :
    (collect tree root paths excludes).value =
      .ok ((collected tree root paths excludes).map (inputFile tree root)) := by
  have hnone : (targets root paths).find? (isMissing tree) = none :=
    List.find?_eq_none.mpr fun target htarget => by simp [hexist target htarget]
  have hloaded : (arrange root (allFiles tree root paths)).filterMap
        (fun e => (load? tree excludes e.1 e.2).value) =
      (collected tree root paths excludes).map (inputFile tree root) := by
    rw [collected, ← List.filterMap_eq_map', List.filterMap_filter, List.filterMap_map,
      Function.comp_def]
    exact List.filterMap_congr fun e he =>
      (isFound_of_mem_arrange plain hroot hpaths hexist he).value_load? plain excludes
  rw [value_collect, hnone, ← hloaded]

theorem ascending_collected :
    (collected tree root paths excludes).Pairwise fun a b =>
      Path.relativeText root.names a < Path.relativeText root.names b := by
  refine (List.pairwise_map.mpr ?_).filter _
  refine pairwise_arrange.imp_of_mem fun ha hb hlt => ?_
  rw [← (isFound_of_mem_arrange plain hroot hpaths hexist ha).relative,
    ← (isFound_of_mem_arrange plain hroot hpaths hexist hb).relative]
  exact hlt

theorem mem_collected (names : List String) :
    names ∈ collected tree root paths excludes ↔ IsWanted tree root paths excludes names := by
  unfold collected
  rw [List.mem_filter]
  constructor
  · rintro ⟨hmem, hkept⟩
    obtain ⟨e, he, rfl⟩ := List.mem_map.mp hmem
    have hfound := isFound_of_mem_arrange plain hroot hpaths hexist he
    exact (hfound.isWanted_iff plain excludes).mp hkept
  · intro hwanted
    obtain ⟨content, hfind⟩ := hwanted.isFile
    obtain ⟨target, htarget, hreach⟩ := hwanted.reached
    have ht := isDirect_of_mem_targets hroot hpaths htarget
    obtain ⟨p, hp, rfl⟩ := exists_mem_filesUnder plain ht hfind hreach
    obtain ⟨hdirect, -, -⟩ := reaches_of_mem_filesUnder plain ht (hexist target htarget) hp
    -- Of the paths that spell one file only one is left, perhaps not this one.
    have hmem : p ∈ allFiles tree root paths := List.mem_flatMap.mpr ⟨target, htarget, hp⟩
    obtain ⟨q, hq⟩ : ∃ q, (root.relativeTo p, q) ∈ arrange root (allFiles tree root paths) :=
      exists_mem_arrange hmem
    have hfound := isFound_of_mem_arrange plain hroot hpaths hexist hq
    obtain ⟨_, hfindq, -⟩ := hfound.find?_eq plain
    have htexts : Path.relativeText root.names q.names = Path.relativeText root.names p.names := by
      rw [← hroot.relativeTo_eq hdirect]
      exact hfound.relative.symm
    have hnames : q.names = p.names :=
      Path.relativeText_inj (plain.isName_of_find? hfindq) (plain.isName_of_find? hfind) htexts
    refine ⟨List.mem_map.mpr ⟨_, hq, hnames⟩, ?_⟩
    rw [← hnames] at hwanted ⊢
    exact (hfound.isWanted_iff plain excludes).mpr hwanted

theorem isListing_collected :
    IsListing tree root paths excludes (collected tree root paths excludes) := by
  have hascending := ascending_collected plain hroot hpaths hexist excludes
  refine ⟨mem_collected plain hroot hpaths hexist excludes, ?_, ?_⟩
  · refine hascending.imp fun hlt heq => ?_
    rw [heq] at hlt
    exact Std.lt_irrefl hlt
  · exact List.pairwise_map.mpr (hascending.imp Text.bytes_lt_of_lt)

end Listing

/-- A scan fails with the first target that is missing; else it collects all wanted files and no
others, each once and in order. -/
theorem collect_lists_wanted (plain : tree.root.Plain) (hroot : root.IsDirect)
    (hpaths : ∀ p ∈ paths, ".." ∉ p.segments) (excludes : List Glob) :
    (∀ failure, (collect tree root paths excludes).value = .error failure ↔
      ∃ target, (targets root paths).find? (isMissing tree) = some target ∧
        failure = .notFound target.text) ∧
    ((∀ target ∈ targets root paths, tree.isFile target ∨ tree.isDirectory target) →
      ∃ found, (collect tree root paths excludes).value = .ok (found.map (inputFile tree root)) ∧
        IsListing tree root paths excludes found) := by
  refine ⟨fun failure => ?_, fun hexist => ?_⟩
  · rw [value_collect]
    cases (targets root paths).find? (isMissing tree) with
    | none => simp
    | some target => simp [eq_comm]
  · have hexist' : ∀ target ∈ targets root paths, isMissing tree target = false := by
      intro target htarget
      rw [isMissing, Bool.not_eq_false', Bool.or_eq_true]
      exact hexist target htarget
    exact ⟨_, value_collect_eq_ok plain hroot hpaths hexist' excludes,
      isListing_collected plain hroot hpaths hexist' excludes⟩

end Collect

def nestedTree : FileTree where
  root := .directory [("w", .directory [
    ("a*[x]", .directory [(".b", .directory [("C.java", .file none)]),
      ("D.kt", .file (some ⟨#[97]⟩))]),
    ("notes.txt", .file (some ⟨#[]⟩))])]
  workingDirectory := ⟨"/"⟩

theorem collect_lists_wanted_nested :
    ∃ found,
      (collect nestedTree ⟨"/w"⟩ [⟨"a*[x]/"⟩, ⟨"/w"⟩] [⟨[.anyRun, .literal 't']⟩]).value =
        .ok (found.map (inputFile nestedTree ⟨"/w"⟩)) ∧
      IsListing nestedTree ⟨"/w"⟩ [⟨"a*[x]/"⟩, ⟨"/w"⟩] [⟨[.anyRun, .literal 't']⟩] found ∧
      ["w", "a*[x]", ".b", "C.java"] ∈ found ∧ ["w", "a*[x]", "D.kt"] ∉ found := by
  have hhidden : (Node.directory [("C.java", .file none)]).Plain :=
    .directory _ (by decide) (by decide) (by simpa using .file none)
  have hstarred : (Node.directory [(".b", .directory [("C.java", .file none)]),
      ("D.kt", .file (some ⟨#[97]⟩))]).Plain :=
    .directory _ (by decide) (by decide) (by simpa using ⟨hhidden, .file _⟩)
  have hscanned : (Node.directory
      [("a*[x]", .directory [(".b", .directory [("C.java", .file none)]),
      ("D.kt", .file (some ⟨#[97]⟩))]), ("notes.txt", .file (some ⟨#[]⟩))]).Plain :=
    .directory _ (by decide) (by decide) (by simpa using ⟨hstarred, .file _⟩)
  have plain : nestedTree.root.Plain :=
    .directory _ (by decide) (by decide) (by simpa using hscanned)
  have hfirst : nestedTree.isDirectory ⟨"/w/a*[x]/"⟩ :=
    FileTree.isDirectory_of_find? plain ⟨by decide, by decide⟩ rfl
  have hsecond : nestedTree.isDirectory ⟨"/w"⟩ :=
    FileTree.isDirectory_of_find? plain ⟨by decide, by decide⟩ rfl
  have htargets : targets ⟨"/w"⟩ [⟨"a*[x]/"⟩, ⟨"/w"⟩] = [⟨"/w/a*[x]/"⟩, ⟨"/w"⟩] := by decide
  have hexist : ∀ target ∈ targets ⟨"/w"⟩ [⟨"a*[x]/"⟩, ⟨"/w"⟩],
      nestedTree.isFile target ∨ nestedTree.isDirectory target := by
    rw [htargets]
    simp [hfirst, hsecond]
  obtain ⟨found, hvalue, hlisting⟩ :=
    (collect_lists_wanted plain ⟨by decide, by decide⟩ (by decide) _).2 hexist
  refine ⟨found, hvalue, hlisting, ?_, ?_⟩
  · refine (hlisting.exact_files _).mpr ⟨⟨none, rfl⟩, ⟨⟨"/w"⟩, ?_, ?_⟩, ?_, by decide⟩
    · rw [htargets]
      simp
    · exact .inr ⟨hsecond, ["a*[x]", ".b", "C.java"], by decide, by decide⟩
    · exact ⟨"C.java", rfl, by decide⟩
  · intro hmem
    exact ((hlisting.exact_files _).mp hmem).not_excluded _ List.mem_cons_self (by decide)

end Discovery

end MigrationAudit
