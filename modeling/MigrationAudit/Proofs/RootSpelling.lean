import MigrationAudit.Proofs.ListedOnce

namespace MigrationAudit.Discovery

/-- A directory that is given from the working directory on, without dots. -/
structure IsBelow (tree : FileTree) (d : Path) : Prop where
  relative : d.isAbsolute = false
  no_current : "." ∉ d.segments
  no_parent : ".." ∉ d.segments
  isDirectory : tree.isDirectory d

/-- What takes the place of the directory in the paths of its files once a dot stands in front of
it. -/
def detourText (d : Path) : String := "/".intercalate (Path.detour d.names)

def filesBelow (tree : FileTree) (d : Path) : List InputFile :=
  listing tree (Path.relativeText (tree.address d)) (found tree d [])

def astrayText (tree : FileTree) (d : Path) (names : List String) : String :=
  detourText d ++ "/" ++ Path.relativeText (tree.address d) names

def astray (d : Path) (f : InputFile) : InputFile :=
  { f with relativePath := some (detourText d ++ "/" ++ f.path) }

theorem path_astray (d : Path) (f : InputFile) :
    (astray d f).path = detourText d ++ "/" ++ f.path := by
  simp only [astray, InputFile.path, Option.getD_some]

def remaining (excludes : List Glob) (files : List InputFile) : List InputFile :=
  files.filter fun f => !isExcluded excludes f

def IsFileBelow (tree : FileTree) (directory names : List String) : Prop :=
  ∃ below content, below ≠ [] ∧ names = directory ++ below ∧
    tree.root.find? names = some (.file content)

section

variable {tree : FileTree} {root d : Path} {relative : List String → String} {names : List String}
  (plain : tree.root.Plain) (hcwd : tree.workingDirectory.IsDirect)

theorem allFiles_root (hdir : tree.isDirectory root) :
    allFiles tree root [] = (tree.walk root).filter tree.isFile := by
  have hfile : ¬tree.isFile root := fun hfile => by
    rw [FileTree.isDirectory_eq_false_of_isFile hfile] at hdir
    exact absurd hdir Bool.false_ne_true
  simp [allFiles, targets, filesUnder, hfile]

theorem not_isMissing_root (hdir : tree.isDirectory root) :
    ∀ target ∈ targets root [], isMissing tree target = false := by
  simp [targets, isMissing, hdir]

/-- A root that stands for a directory, and how the paths of the files in it read from there:
`relative` keeps their order. -/
structure Spells (tree : FileTree) (d root : Path) (relative : List String → String) : Prop where
  forward : root.IsForward
  isDirectory : tree.isDirectory root
  begins : ∃ start, FileTree.walkRoot? root = some start
  address : tree.address root = tree.address d
  spelled : ∀ p ∈ allFiles tree root [], IsSpelling tree root relative p
  ascending : ∀ a b, Path.relativeText (tree.address d) a < Path.relativeText (tree.address d) b →
    relative a < relative b

namespace Spells

variable (h : Spells tree d root relative)
include h

theorem distinct {a b : List String} (ha : ∀ s ∈ a, Path.IsName s) (hb : ∀ s ∈ b, Path.IsName s)
    (heq : relative a = relative b) : a = b := by
  have htexts : Path.relativeText (tree.address d) a = Path.relativeText (tree.address d) b := by
    refine Std.le_antisymm (Std.not_lt.mp fun hlt => ?_) (Std.not_lt.mp fun hlt => ?_)
    · exact Std.ne_of_lt (h.ascending _ _ hlt) heq.symm
    · exact Std.ne_of_lt (h.ascending _ _ hlt) heq
  exact Path.relativeText_inj ha hb htexts

include plain hcwd

theorem exists_file {p : Path} (hp : p ∈ allFiles tree root []) :
    ∃ content, tree.root.find? (tree.address p) = some (.file content) := by
  obtain ⟨content, hnode⟩ := FileTree.isFile_iff.mp (h.spelled p hp).isFile
  exact ⟨content, FileTree.find?_address plain hcwd (h.spelled p hp).forward hnode⟩

/-- All files in the directory are found, and no others. -/
theorem mem_found : names ∈ found tree root [] ↔ IsFileBelow tree (tree.address d) names := by
  have hfound : names ∈ found tree root [] ↔
      ∃ p ∈ allFiles tree root [], tree.address p = names := by
    refine Discovery.mem_found h.spelled (fun p hp q hq => ?_) names
    obtain ⟨_, hp⟩ := h.exists_file plain hcwd hp
    obtain ⟨_, hq⟩ := h.exists_file plain hcwd hq
    exact h.distinct (plain.isName_of_find? hp) (plain.isName_of_find? hq)
  rw [hfound, ← h.address]
  -- What is left is the walk, which spells each file its own way but keeps its address.
  constructor
  · rintro ⟨p, hp, rfl⟩
    obtain ⟨content, hfind⟩ := h.exists_file plain hcwd hp
    rw [allFiles_root h.isDirectory] at hp
    obtain ⟨below, hne, hextends, -⟩ :=
      FileTree.extends_of_mem_walk plain hcwd h.forward h.isDirectory (List.mem_filter.mp hp).1
    exact ⟨below, content, hne, FileTree.address_eq_append hcwd hextends.isAbsolute
      hextends.names, hfind⟩
  · rintro ⟨below, content, hne, rfl, hfind⟩
    obtain ⟨start, hstart⟩ := h.begins
    obtain ⟨q, hq, haddress, hnode⟩ :=
      FileTree.exists_mem_walk_address plain hcwd h.forward h.isDirectory hstart hne hfind
    rw [allFiles_root h.isDirectory]
    exact ⟨q, List.mem_filter.mpr ⟨hq, FileTree.isFile_iff.mpr ⟨content, hnode⟩⟩, haddress⟩

/-- One order of the files serves all spellings. -/
theorem found_eq (hd : Spells tree d d (Path.relativeText (tree.address d))) :
    found tree root [] = found tree d [] := by
  have hascending : (found tree d []).Pairwise fun a b => relative a < relative b :=
    (pairwise_found hd.spelled).imp fun hlt => h.ascending _ _ hlt
  exact eq_of_ascending (pairwise_found h.spelled) hascending
    fun _ => (h.mem_found plain hcwd).trans (hd.mem_found plain hcwd).symm

theorem value_collect (hd : Spells tree d d (Path.relativeText (tree.address d)))
    (excludes : List Glob) :
    (collect tree root [] excludes).value =
      .ok (remaining excludes (listing tree relative (found tree d []))) := by
  rw [value_collect_of_spelled plain hcwd h.spelled (not_isMissing_root h.isDirectory),
    h.found_eq plain hcwd hd]
  rfl

end Spells

theorem listing_astrayText (addresses : List (List String)) :
    listing tree (astrayText tree d) addresses =
      (listing tree (Path.relativeText (tree.address d)) addresses).map (astray d) := by
  have hlisted (names : List String) : listed tree (astrayText tree d) names =
      astray d (listed tree (Path.relativeText (tree.address d)) names) := by
    simp only [listed, astray, astrayText, InputFile.path, Option.getD_some]
  have haccepted : InputFile.isAccepted ∘ astray d = InputFile.isAccepted := by
    funext f
    simp only [Function.comp_apply, InputFile.isAccepted, astray]
  have hmap : addresses.map (listed tree (astrayText tree d)) =
      (addresses.map (listed tree (Path.relativeText (tree.address d)))).map (astray d) := by
    rw [List.map_map]
    exact List.map_congr_left fun names _ => hlisted names
  rw [listing, hmap, List.filter_map, haccepted, listing]

namespace IsBelow

variable (h : IsBelow tree d)
include h

theorem not_empty : d.text ≠ "" :=
  FileTree.text_ne_of_holds (FileTree.holds_of_isDirectory h.isDirectory)

theorem forward : d.IsForward := h.no_parent

theorem start? : d.start? = none := by
  have hhead : d.segments.head? ≠ some "." := fun hhead => h.no_current (List.mem_of_head? hhead)
  rw [Path.start?, h.relative, if_neg Bool.false_ne_true, if_neg hhead]

theorem names_ne_nil : d.names ≠ [] := by
  obtain ⟨s, rest, hsegments, hs⟩ := Path.exists_segments_eq_cons h.relative h.not_empty
  have hdot : "." ≠ s := fun hdot => h.no_current (by simp [hsegments, hdot])
  rw [Path.names, hsegments, Path.namesIn_cons_of_kept (not_or.mpr ⟨hs, hdot.symm⟩)]
  exact List.cons_ne_nil _ _

include plain hcwd

theorem isName_of_mem {s : String} (hs : s ∈ d.names) : Path.IsName s := by
  obtain ⟨entries, hfind⟩ :=
    (FileTree.isDirectory_iff_address plain hcwd h.forward h.not_empty).mp h.isDirectory
  refine plain.isName_of_find? hfind s ?_
  rw [FileTree.address_of_relative hcwd h.relative]
  exact List.mem_append_right _ hs

theorem spells : Spells tree d d (Path.relativeText (tree.address d)) := by
  have haligned : IsAligned d [] := ⟨h.forward, by simp, .inr ⟨by simp, by simp [h.start?]⟩⟩
  obtain ⟨start, hstart, -⟩ :=
    FileTree.exists_walkRoot?_of_relative h.relative h.not_empty h.no_current
  exact {
    forward := h.forward
    isDirectory := h.isDirectory
    begins := ⟨start, hstart⟩
    address := rfl
    spelled := fun p hp =>
      isSpelling_of_aligned plain hcwd haligned h.not_empty (not_isMissing_root h.isDirectory) hp
    ascending := fun _ _ hlt => hlt }

theorem spells_absolute :
    Spells tree d (tree.workingDirectory.join d) (Path.relativeText (tree.address d)) := by
  have hdirect := FileTree.isDirect_join hcwd h.forward
  have haligned : IsAligned (tree.workingDirectory.join d) [] :=
    ⟨hdirect.isForward, by simp, .inl hdirect.absolute⟩
  have hdir : tree.isDirectory (tree.workingDirectory.join d) := by
    have hisDir := h.isDirectory
    rwa [FileTree.isDirectory, ← FileTree.node?_join hcwd h.not_empty] at hisDir
  have haddress : tree.address (tree.workingDirectory.join d) = tree.address d :=
    FileTree.address_of_isAbsolute hdirect.absolute
  obtain ⟨start, hstart, -⟩ := FileTree.exists_walkRoot? hdirect
  exact {
    forward := hdirect.isForward
    isDirectory := hdir
    begins := ⟨start, hstart⟩
    address := haddress
    spelled := fun p hp => haddress ▸ isSpelling_of_aligned plain hcwd haligned
      (Path.text_ne_of_isAbsolute hdirect.absolute) (not_isMissing_root hdir) hp
    ascending := fun _ _ hlt => hlt }

/-- The walk drops the dot and the root keeps it, so each file seems to lie elsewhere. -/
theorem isSpelling_dotted (hdir : tree.isDirectory d.dotted)
    (haddress : tree.address d.dotted = tree.address d) {p : Path}
    (hp : p ∈ allFiles tree d.dotted []) : IsSpelling tree d.dotted (astrayText tree d) p := by
  rw [allFiles_root hdir] at hp
  obtain ⟨hwalk, hfile⟩ := List.mem_filter.mp hp
  obtain ⟨names, hne, hextends, -⟩ :=
    FileTree.extends_of_mem_walk plain hcwd h.forward.dotted hdir hwalk
  have hnames : p.names = d.dotted.names ++ names := hextends.names
  have hdotted : d.dotted.names ≠ [] := by
    rw [d.names_dotted]
    exact h.names_ne_nil
  -- The dot is at the front of the root alone, which is where the two part.
  have hundotted : p.start? = none := by
    have hrelative := Path.start?_of_relative (hextends.isAbsolute.trans d.isAbsolute_dotted)
    refine hrelative.resolve_left (hextends.start.start?_ne ?_)
    rw [hnames]
    exact List.append_ne_nil_of_right_ne_nil _ hne
  have haddressed : tree.address p = tree.address d ++ names := by
    rw [FileTree.address_eq_append hcwd hextends.isAbsolute hnames, haddress]
  refine ⟨hextends.start.forward, hfile, ?_⟩
  rw [h.forward.dotted.relativeTo_detour hextends.start.forward d.start?_dotted hundotted
    hdotted hnames, String.intercalate_append_of_ne_nil (Path.detour_ne_nil hdotted) hne,
    d.names_dotted, haddressed, astrayText, Path.relativeText_append_self]
  rfl

theorem spells_dotted : Spells tree d d.dotted (astrayText tree d) := by
  have haddress : tree.address d.dotted = tree.address d := by
    rw [FileTree.address_of_relative hcwd d.isAbsolute_dotted, d.names_dotted,
      FileTree.address_of_relative hcwd h.relative]
  have hdir : tree.isDirectory d.dotted := by
    have hfind :=
      (FileTree.isDirectory_iff_address plain hcwd h.forward h.not_empty).mp h.isDirectory
    refine (FileTree.isDirectory_iff_address plain hcwd h.forward.dotted
      (by simp [Path.dotted])).mpr ?_
    rwa [haddress]
  obtain ⟨start, -, hstart⟩ :=
    FileTree.exists_walkRoot?_of_relative h.relative h.not_empty h.no_current
  refine {
    forward := h.forward.dotted
    isDirectory := hdir
    begins := ⟨start, hstart⟩
    address := haddress
    spelled := fun p hp => h.isSpelling_dotted plain hcwd hdir haddress hp
    ascending := fun a b hlt => ?_ }
  unfold astrayText
  rw [String.lt_iff, String.toList_append, String.toList_append (s := detourText d ++ "/")]
  exact List.append_left_lt (String.lt_iff.mp hlt)

theorem value_collect (excludes : List Glob) :
    (collect tree d [] excludes).value = .ok (remaining excludes (filesBelow tree d)) :=
  (h.spells plain hcwd).value_collect plain hcwd (h.spells plain hcwd) excludes

theorem value_collect_absolute (excludes : List Glob) :
    (collect tree (tree.workingDirectory.join d) [] excludes).value =
      .ok (remaining excludes (filesBelow tree d)) :=
  (h.spells_absolute plain hcwd).value_collect plain hcwd (h.spells plain hcwd) excludes

theorem value_collect_dotted (excludes : List Glob) :
    (collect tree d.dotted [] excludes).value =
      .ok (remaining excludes ((filesBelow tree d).map (astray d))) := by
  rw [(h.spells_dotted plain hcwd).value_collect plain hcwd (h.spells plain hcwd),
    listing_astrayText]
  rfl

/-- The path of a file goes straight down. -/
theorem parent_not_mem_segments {f : InputFile} (hf : f ∈ filesBelow tree d) :
    ".." ∉ Path.segments ⟨f.path⟩ := by
  obtain ⟨names, hnames, rfl⟩ := List.mem_map.mp (List.mem_of_mem_filter hf)
  obtain ⟨below, content, -, rfl, hfind⟩ := ((h.spells plain hcwd).mem_found plain hcwd).mp hnames
  have hisName : ∀ s ∈ below, Path.IsName s :=
    fun s hs => plain.isName_of_find? hfind s (List.mem_append_right _ hs)
  have hsegments : (Path.segments ⟨"/".intercalate below⟩).filter (· ≠ "") = below :=
    Path.filter_segments_intercalate fun s hs => ⟨(hisName s hs).not_empty, (hisName s hs).no_slash⟩
  rw [path_listed, Path.relativeText_append_self]
  intro hmem
  have hkept : ".." ∈ below := hsegments ▸ List.mem_filter.mpr ⟨hmem, by decide⟩
  exact (hisName _ hkept).not_parent rfl

theorem parent_mem_segments_astray (f : InputFile) : ".." ∈ Path.segments ⟨(astray d f).path⟩ := by
  have hsegments : (Path.segments ⟨detourText d⟩).filter (· ≠ "") = Path.detour d.names := by
    refine Path.filter_segments_intercalate fun s hs => ?_
    rcases Path.mem_detour hs with rfl | hs
    · decide
    · exact ⟨(h.isName_of_mem plain hcwd hs).not_empty, (h.isName_of_mem plain hcwd hs).no_slash⟩
  have hmem : ".." ∈ Path.segments ⟨detourText d⟩ := by
    have hdetour := Path.parent_mem_detour h.names_ne_nil
    rw [← hsegments] at hdetour
    exact List.mem_of_mem_filter hdetour
  rw [path_astray, Path.segments_append]
  exact List.mem_append_left _ hmem

/-- No file keeps its path on the detour. -/
theorem astray_ne {f g : InputFile} (hf : f ∈ filesBelow tree d) : astray d g ≠ f := by
  rintro rfl
  exact h.parent_not_mem_segments plain hcwd hf (h.parent_mem_segments_astray plain hcwd g)

end IsBelow

/-- A directory given from the working directory on and the same directory given from the root of
the file system on are collected alike, whatever is excluded. A dot in front of the directory leads
the path of each file astray, also where the excludes look at it, so that one list is the other only
if both are empty. -/
theorem collect_of_root_spelling (plain : tree.root.Plain) (hcwd : tree.workingDirectory.IsDirect)
    (h : IsBelow tree d) :
    ∃ files, ∀ excludes,
      (collect tree d [] excludes).value = .ok (remaining excludes files) ∧
      (collect tree (tree.workingDirectory.join d) [] excludes).value =
        .ok (remaining excludes files) ∧
      (collect tree d.dotted [] excludes).value = .ok (remaining excludes (files.map (astray d))) ∧
      ((collect tree d.dotted [] excludes).value = (collect tree d [] excludes).value ↔
        (collect tree d.dotted [] excludes).value = .ok [] ∧
          (collect tree d [] excludes).value = .ok []) := by
  refine ⟨filesBelow tree d, fun excludes => ?_⟩
  rw [h.value_collect plain hcwd, h.value_collect_absolute plain hcwd,
    h.value_collect_dotted plain hcwd]
  refine ⟨rfl, rfl, rfl, fun hsame => ?_, fun ⟨hdotted, hplain⟩ => by rw [hdotted, hplain]⟩
  rw [Except.ok.injEq] at hsame
  -- A file in both lists would go straight down and turn back.
  have hempty : remaining excludes (filesBelow tree d) = [] := by
    refine List.eq_nil_iff_forall_not_mem.mpr fun f hf => ?_
    have hmem : f ∈ remaining excludes ((filesBelow tree d).map (astray d)) := hsame ▸ hf
    obtain ⟨g, -, rfl⟩ := List.mem_map.mp (List.mem_of_mem_filter hmem)
    exact h.astray_ne plain hcwd (List.mem_of_mem_filter hf) rfl
  rw [hsame, hempty]
  exact ⟨rfl, rfl⟩

end

theorem isBelow_oneFileTree : IsBelow (oneFileTree ⟨"/"⟩) ⟨"w"⟩ :=
  ⟨by decide, by decide, by decide,
    isDirectory_oneFileTree ⟨by decide, by decide⟩ (by decide) (by decide) (by decide)⟩

/-- The one directory of a tree, whatever is excluded of it. -/
theorem collect_of_root_spelling_one_file :
    (oneFileTree ⟨"/"⟩).root.Plain ∧ (oneFileTree ⟨"/"⟩).workingDirectory.IsDirect ∧
      IsBelow (oneFileTree ⟨"/"⟩) ⟨"w"⟩ ∧
      ∃ files, ∀ excludes,
        (collect (oneFileTree ⟨"/"⟩) ⟨"w"⟩ [] excludes).value = .ok (remaining excludes files) ∧
        (collect (oneFileTree ⟨"/"⟩) ⟨"/w"⟩ [] excludes).value = .ok (remaining excludes files) ∧
        (collect (oneFileTree ⟨"/"⟩) ⟨"./w"⟩ [] excludes).value =
          .ok (remaining excludes (files.map (astray ⟨"w"⟩))) := by
  have hcwd : (oneFileTree ⟨"/"⟩).workingDirectory.IsDirect := ⟨by decide, by decide⟩
  obtain ⟨files, hfiles⟩ := collect_of_root_spelling plain_oneFileTree hcwd isBelow_oneFileTree
  refine ⟨plain_oneFileTree, hcwd, isBelow_oneFileTree, files, fun excludes => ?_⟩
  obtain ⟨hrelative, habsolute, hdotted, -⟩ := hfiles excludes
  have hjoin : (oneFileTree ⟨"/"⟩).workingDirectory.join ⟨"w"⟩ = ⟨"/w"⟩ := by decide
  have hdot : Path.dotted ⟨"w"⟩ = ⟨"./w"⟩ := by decide
  rw [hjoin] at habsolute
  rw [hdot] at hdotted
  exact ⟨hrelative, habsolute, hdotted⟩

theorem filesBelow_oneFileTree :
    filesBelow (oneFileTree ⟨"/"⟩) ⟨"w"⟩ = [⟨"A.kt", some "A.kt", some ⟨#[120]⟩⟩] := by
  have hcwd : (oneFileTree ⟨"/"⟩).workingDirectory.IsDirect := ⟨by decide, by decide⟩
  have hmem (names : List String) :
      names ∈ found (oneFileTree ⟨"/"⟩) ⟨"w"⟩ [] ↔ names ∈ [["w", "A.kt"]] := by
    rw [(isBelow_oneFileTree.spells plain_oneFileTree hcwd).mem_found plain_oneFileTree hcwd,
      List.mem_singleton]
    constructor
    · rintro ⟨_, _, -, -, hfind⟩
      exact find?_oneFileTree hfind
    · rintro rfl
      exact ⟨["A.kt"], _, by decide, by decide, rfl⟩
  have hfound : found (oneFileTree ⟨"/"⟩) ⟨"w"⟩ [] = [["w", "A.kt"]] :=
    eq_of_ascending (pairwise_found (isBelow_oneFileTree.spells plain_oneFileTree hcwd).spelled)
      (List.pairwise_singleton _ _) hmem
  have hlisted : listed (oneFileTree ⟨"/"⟩) (Path.relativeText ((oneFileTree ⟨"/"⟩).address ⟨"w"⟩))
      ["w", "A.kt"] = ⟨"A.kt", some "A.kt", some ⟨#[120]⟩⟩ := by
    have htext : Path.relativeText ((oneFileTree ⟨"/"⟩).address ⟨"w"⟩) ["w", "A.kt"] = "A.kt" :=
      by decide
    rw [listed, htext]
    rfl
  have haccepted : InputFile.isAcceptedName "A.kt" := by decide +kernel
  rw [filesBelow, listing, hfound]
  simp [hlisted, InputFile.isAccepted, haccepted]

/-- With a dot in front of the directory the path of its file turns back first, and the exclude `A*`
no longer covers it. -/
theorem collect_dotted_astray :
    (collect (oneFileTree ⟨"/"⟩) ⟨"w"⟩ [] []).value = .ok [⟨"A.kt", some "A.kt", some ⟨#[120]⟩⟩] ∧
      (collect (oneFileTree ⟨"/"⟩) ⟨"./w"⟩ [] []).value =
        .ok [⟨"A.kt", some "w/../A.kt", some ⟨#[120]⟩⟩] ∧
      (collect (oneFileTree ⟨"/"⟩) ⟨"w"⟩ [] [⟨[.literal 'A', .anyRun]⟩]).value = .ok [] ∧
      (collect (oneFileTree ⟨"/"⟩) ⟨"./w"⟩ [] [⟨[.literal 'A', .anyRun]⟩]).value =
        .ok [⟨"A.kt", some "w/../A.kt", some ⟨#[120]⟩⟩] := by
  have hcwd : (oneFileTree ⟨"/"⟩).workingDirectory.IsDirect := ⟨by decide, by decide⟩
  have hrelative := isBelow_oneFileTree.value_collect plain_oneFileTree hcwd
  have hdotted := isBelow_oneFileTree.value_collect_dotted plain_oneFileTree hcwd
  have hdot : Path.dotted ⟨"w"⟩ = ⟨"./w"⟩ := by decide
  have hastray : astray ⟨"w"⟩ ⟨"A.kt", some "A.kt", some ⟨#[120]⟩⟩ =
      ⟨"A.kt", some "w/../A.kt", some ⟨#[120]⟩⟩ := by
    have htext : detourText ⟨"w"⟩ ++ "/" ++ "A.kt" = "w/../A.kt" := by decide
    simp only [astray, InputFile.path, Option.getD_some, htext]
  rw [filesBelow_oneFileTree] at hrelative hdotted
  rw [hdot, List.map_singleton, hastray] at hdotted
  have hcovered : Glob.covers ⟨[.literal 'A', .anyRun]⟩ "A.kt" = true := by decide
  have huncovered : Glob.covers ⟨[.literal 'A', .anyRun]⟩ "w/../A.kt" = false := by decide
  refine ⟨?_, ?_, ?_, ?_⟩
  · simp [hrelative, remaining, isExcluded]
  · simp [hdotted, remaining, isExcluded]
  · simp [hrelative, remaining, isExcluded, InputFile.path, hcovered]
  · simp [hdotted, remaining, isExcluded, InputFile.path, huncovered]

end MigrationAudit.Discovery
