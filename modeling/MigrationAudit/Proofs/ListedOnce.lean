import MigrationAudit.Proofs.Contribution
import MigrationAudit.Proofs.Listing

namespace MigrationAudit.Discovery

/-- Root and paths spelled so that no file has two paths from the root: nothing turns back, all
paths begin where the root does, and a dot in front of the root stands alone. -/
structure IsAligned (root : Path) (paths : List Path) : Prop where
  forward : root.IsForward
  paths_forward : ∀ p ∈ paths, p.IsForward
  alike : root.isAbsolute ∨
    (∀ p ∈ paths, p.isAbsolute = false) ∧ (root.start? = some .current → root.names = [])

section

variable {tree : FileTree} {root p target : Path} {paths : List Path}

namespace IsAligned

variable (h : IsAligned root paths) (hroot : root.text ≠ "")
include h hroot

theorem of_mem_targets (ht : target ∈ targets root paths) :
    target.IsForward ∧ target.isAbsolute = root.isAbsolute ∧ target.start? = root.start? := by
  unfold targets at ht
  split at ht
  · obtain rfl := List.mem_singleton.mp ht
    exact ⟨h.forward, rfl, rfl⟩
  · obtain ⟨p, hp, rfl⟩ := List.mem_map.mp ht
    refine ⟨h.forward.join (h.paths_forward p hp), ?_⟩
    cases hrel : p.isAbsolute with
    | false => exact ⟨Path.isAbsolute_join_eq hrel hroot, Path.start?_join hrel hroot⟩
    | true =>
      have habs : root.isAbsolute := h.alike.resolve_right fun ⟨hrelative, _⟩ => by
        simp [hrelative p hp] at hrel
      rw [Path.join_of_isAbsolute hrel, hrel, habs, Path.start?_eq_root_iff.mpr hrel,
        Path.start?_eq_root_iff.mpr habs]
      exact ⟨rfl, rfl⟩

end IsAligned

section Spelling

variable (plain : tree.root.Plain) (hcwd : tree.workingDirectory.IsDirect)
include plain hcwd

/-- A file of a target begins as the target does, or without the dot of the target. -/
theorem of_mem_filesUnder (ht : target.IsForward) (hexists : isMissing tree target = false)
    (hp : p ∈ filesUnder tree target) :
    p.IsForward ∧ tree.isFile p ∧ p.isAbsolute = target.isAbsolute ∧
      (p.start? = target.start? ∨ p.start? ≠ some .current) := by
  unfold filesUnder at hp
  split at hp
  · next hfile =>
    obtain rfl := List.mem_singleton.mp hp
    exact ⟨ht, hfile, rfl, .inl rfl⟩
  · next hfile =>
    have hdir : tree.isDirectory target := by simpa [isMissing, hfile] using hexists
    obtain ⟨hwalk, hpfile⟩ := List.mem_filter.mp hp
    obtain ⟨names, hne, hextends, -⟩ := FileTree.extends_of_mem_walk plain hcwd ht hdir hwalk
    refine ⟨hextends.start.forward, hpfile, hextends.isAbsolute, .inr (hextends.start.start?_ne ?_)⟩
    rw [hextends.names]
    exact List.append_ne_nil_of_right_ne_nil _ hne

theorem relativeTo_eq_of_start? (hroot : root.IsForward) (hp : p.IsForward) (hfile : tree.isFile p)
    (habs : p.isAbsolute = root.isAbsolute)
    (hstart : p.start? = root.start? ∨ p.start? ≠ some .current)
    (hdot : root.start? = some .current → root.names = []) :
    root.relativeTo p = Path.relativeText (tree.address root) (tree.address p) := by
  cases hrelative : root.isAbsolute with
  | true =>
    have hsame : root.start? = p.start? := by
      rw [Path.start?_eq_root_iff.mpr hrelative, Path.start?_eq_root_iff.mpr (habs.trans hrelative)]
    rw [hroot.relativeTo_of_start?_eq hp hsame, FileTree.address_of_isAbsolute hrelative,
      FileTree.address_of_isAbsolute (habs.trans hrelative)]
  | false =>
    have hnames : root.relativeTo p = Path.relativeText root.names p.names := by
      by_cases hsame : root.start? = p.start?
      · exact hroot.relativeTo_of_start?_eq hp hsame
      · -- Only a dot can stand in front of the one and not of the other.
        have hundotted : p.start? = none :=
          (Path.start?_of_relative (habs.trans hrelative)).resolve_left
            (hstart.resolve_left (Ne.symm hsame))
        have hdotted : root.start? = some .current :=
          (Path.start?_of_relative hrelative).resolve_right fun hnone =>
            hsame (hnone.trans hundotted.symm)
        exact hroot.relativeTo_of_dot_nil hp hdotted (hdot hdotted) hundotted
          (FileTree.names_ne_nil_of_file plain hcwd hp hfile)
    rw [hnames, FileTree.address_of_relative hcwd hrelative,
      FileTree.address_of_relative hcwd (habs.trans hrelative), Path.relativeText_append_left]

theorem isSpelling_of_aligned (h : IsAligned root paths) (hroot : root.text ≠ "")
    (hexist : ∀ target ∈ targets root paths, isMissing tree target = false)
    (hp : p ∈ allFiles tree root paths) :
    IsSpelling tree root (Path.relativeText (tree.address root)) p := by
  obtain ⟨target, htarget, hp⟩ := List.mem_flatMap.mp hp
  obtain ⟨hforward, habs, hstart⟩ := h.of_mem_targets hroot htarget
  obtain ⟨hpforward, hfile, hpabs, hpstart⟩ :=
    of_mem_filesUnder plain hcwd hforward (hexist target htarget) hp
  rw [hstart] at hpstart
  refine ⟨hpforward, hfile, ?_⟩
  refine relativeTo_eq_of_start? plain hcwd h.forward hpforward hfile (hpabs.trans habs) hpstart ?_
  intro hdotted
  refine (h.alike.resolve_left fun habsolute => ?_).2 hdotted
  simp [Path.isAbsolute_eq_false_of_start? (p := root) (by simp [hdotted])] at habsolute

end Spelling

/-- A list of files in which no file of the tree is met twice. -/
structure IsListedOnce (tree : FileTree) (root : Path) (files : List InputFile)
    (addresses : List (List String)) : Prop where
  once : addresses.Nodup
  isFile : ∀ names ∈ addresses, ∃ content, tree.root.find? names = some (.file content)
  files_eq : files = addresses.map (listed tree (Path.relativeText (tree.address root)))
  /-- So no issue counts twice either. -/
  issues_eq : ∀ rules a, (Analysis.ofFiles? rules files).value = some a →
    a.issues =
      (addresses.flatMap fun names =>
        (listed tree (Path.relativeText (tree.address root)) names).contribution rules) ++
      a.shape.issues

/-- If root and paths are spelled alike, no file is collected twice, however often and by whichever
directories the paths lead to it. -/
theorem collects_no_file_twice (plain : tree.root.Plain) (hcwd : tree.workingDirectory.IsDirect)
    (hroot : tree.holds root) (haligned : IsAligned root paths) (excludes : List Glob)
    {files : List InputFile} (hfiles : (collect tree root paths excludes).value = .ok files) :
    ∃ addresses, IsListedOnce tree root files addresses := by
  have htext : root.text ≠ "" := FileTree.text_ne_of_holds hroot
  have hexist : ∀ target ∈ targets root paths, isMissing tree target = false := by
    intro target htarget
    rw [value_collect] at hfiles
    cases hfind : (targets root paths).find? (isMissing tree) with
    | some _ => simp [hfind] at hfiles
    | none => simpa using List.find?_eq_none.mp hfind target htarget
  -- All files are told from their addresses, and the order of the paths holds no path twice.
  have hspelled := fun p => isSpelling_of_aligned (p := p) plain hcwd haligned htext hexist
  rw [value_collect_of_spelled plain hcwd hspelled hexist, Except.ok.injEq, listing,
    List.filter_filter, List.filter_map] at hfiles
  subst hfiles
  refine ⟨_, ?_, ?_, rfl, ?_⟩
  · exact ((pairwise_found hspelled).filter _).imp fun hlt heq => Std.ne_of_lt hlt (congrArg _ heq)
  · intro names hmem
    obtain ⟨e, he, rfl⟩ := List.mem_map.mp (List.mem_of_mem_filter hmem)
    have hspelling := hspelled e.2 (mem_of_mem_arrange he).1
    obtain ⟨content, hnode⟩ := FileTree.isFile_iff.mp hspelling.isFile
    exact ⟨content, FileTree.find?_address plain hcwd hspelling.forward hnode⟩
  · intro rules a ha
    obtain ⟨-, rfl⟩ : _ ∧ Analysis.ofFiles rules _ = a := by
      rw [Analysis.value_ofFiles?] at ha
      split_ifs at ha with hnil
      exact ⟨hnil, Option.some.inj ha⟩
    rw [Analysis.issues_eq_flatten, ← List.flatMap_def, List.flatMap_map]

end

def oneFileTree (workingDirectory : Path) : FileTree where
  root := .directory [("w", .directory [("A.kt", .file (some ⟨#[120]⟩))])]
  workingDirectory := workingDirectory

section OneFile

variable {workingDirectory : Path}

theorem plain_oneFileTree : (oneFileTree workingDirectory).root.Plain := by
  have hscanned : (Node.directory [("A.kt", .file (some ⟨#[120]⟩))]).Plain :=
    .directory _ (by decide) (by decide) (by simpa using .file _)
  exact .directory _ (by decide) (by decide) (by simpa using hscanned)

theorem find?_singleton (entry : String) (child : Node) (name : String) (names : List String) :
    (Node.directory [(entry, child)]).find? (name :: names) =
      if name = entry then child.find? names else none := by
  rw [Node.find?, Node.entries, List.lookup_cons, List.lookup_nil]
  split_ifs with h
  · rw [beq_iff_eq.mpr h]
    rfl
  · rw [beq_eq_false_iff_ne.mpr h]
    rfl

theorem find?_oneFileTree {names : List String} {content : Option ByteArray}
    (h : (oneFileTree workingDirectory).root.find? names = some (.file content)) :
    names = ["w", "A.kt"] := by
  match names, h with
  | [], h => cases h
  | first :: names, h =>
    rw [oneFileTree, find?_singleton] at h
    split_ifs at h with hfirst
    match names, h with
    | [], h => cases h
    | second :: names, h =>
      rw [find?_singleton] at h
      split_ifs at h with hsecond
      match names, h with
      | [], _ => rw [hfirst, hsecond]
      | _ :: _, h => cases h

theorem node?_oneFileTree (hcwd : workingDirectory.IsDirect) {p : Path} (hp : p.IsForward)
    (haddress : (oneFileTree workingDirectory).address p = ["w", "A.kt"])
    (hlast : p.segments.getLast? = some "A.kt") :
    (oneFileTree workingDirectory).node? p = some (.file (some ⟨#[120]⟩)) :=
  FileTree.node?_of_find?_address plain_oneFileTree hcwd hp (by rw [haddress]; rfl)
    hlast (by decide)

theorem isDirectory_oneFileTree (hcwd : workingDirectory.IsDirect) {p : Path} (hp : p.IsForward)
    (htext : p.text ≠ "") (haddress : (oneFileTree workingDirectory).address p = ["w"]) :
    (oneFileTree workingDirectory).isDirectory p :=
  (FileTree.isDirectory_iff_address plain_oneFileTree hcwd hp htext).mpr ⟨_, by rw [haddress]; rfl⟩

end OneFile

/-- The directory, the file in it, and the file again. -/
theorem collects_no_file_twice_repeated :
    (oneFileTree ⟨"/w"⟩).root.Plain ∧ (oneFileTree ⟨"/w"⟩).workingDirectory.IsDirect ∧
      (oneFileTree ⟨"/w"⟩).holds ⟨"."⟩ ∧ IsAligned ⟨"."⟩ [⟨"."⟩, ⟨"A.kt"⟩, ⟨"./A.kt"⟩] ∧
      ∃ files addresses,
        (collect (oneFileTree ⟨"/w"⟩) ⟨"."⟩ [⟨"."⟩, ⟨"A.kt"⟩, ⟨"./A.kt"⟩] []).value = .ok files ∧
        IsListedOnce (oneFileTree ⟨"/w"⟩) ⟨"."⟩ files addresses := by
  have hcwd : Path.IsDirect ⟨"/w"⟩ := ⟨by decide, by decide⟩
  have hroot : (oneFileTree ⟨"/w"⟩).holds ⟨"."⟩ :=
    FileTree.holds_of_isDirectory (isDirectory_oneFileTree hcwd (by decide) (by decide) (by decide))
  have hdir : (oneFileTree ⟨"/w"⟩).isDirectory ⟨"./."⟩ :=
    isDirectory_oneFileTree hcwd (by decide) (by decide) (by decide)
  have hfile : (oneFileTree ⟨"/w"⟩).isFile ⟨"./A.kt"⟩ :=
    FileTree.isFile_iff.mpr ⟨_, node?_oneFileTree hcwd (by decide) (by decide) (by decide)⟩
  have hfile' : (oneFileTree ⟨"/w"⟩).isFile ⟨"././A.kt"⟩ :=
    FileTree.isFile_iff.mpr ⟨_, node?_oneFileTree hcwd (by decide) (by decide) (by decide)⟩
  have haligned : IsAligned ⟨"."⟩ [⟨"."⟩, ⟨"A.kt"⟩, ⟨"./A.kt"⟩] :=
    ⟨by decide, by decide, .inr ⟨by decide, by decide⟩⟩
  have htargets : targets ⟨"."⟩ [⟨"."⟩, ⟨"A.kt"⟩, ⟨"./A.kt"⟩] =
      [⟨"./."⟩, ⟨"./A.kt"⟩, ⟨"././A.kt"⟩] := by
    decide
  have hnone : (targets ⟨"."⟩ [⟨"."⟩, ⟨"A.kt"⟩, ⟨"./A.kt"⟩]).find?
      (isMissing (oneFileTree ⟨"/w"⟩)) = none := by
    rw [htargets]
    simp [isMissing, hdir, hfile, hfile']
  have hvalue := value_collect (oneFileTree ⟨"/w"⟩) ⟨"."⟩ [⟨"."⟩, ⟨"A.kt"⟩, ⟨"./A.kt"⟩] []
  rw [hnone] at hvalue
  obtain ⟨addresses, honce⟩ :=
    collects_no_file_twice plain_oneFileTree hcwd hroot haligned [] hvalue
  exact ⟨plain_oneFileTree, hcwd, hroot, haligned, _, addresses, hvalue, honce⟩

/-- A file that is given once from the working directory on and once from the root of the file
system on is collected twice: the second path from a relative root leaves out that root. -/
theorem collects_one_file_twice :
    (∀ names content, (oneFileTree ⟨"/w"⟩).root.find? names = some (.file content) →
        names = ["w", "A.kt"]) ∧
      (collect (oneFileTree ⟨"/w"⟩) ⟨"."⟩ [⟨"A.kt"⟩, ⟨"/w/A.kt"⟩] []).value =
        .ok [⟨"A.kt", some "//w/A.kt", some ⟨#[120]⟩⟩, ⟨"A.kt", some "A.kt", some ⟨#[120]⟩⟩] := by
  refine ⟨fun names content => find?_oneFileTree, ?_⟩
  have hcwd : Path.IsDirect ⟨"/w"⟩ := ⟨by decide, by decide⟩
  have hnode : (oneFileTree ⟨"/w"⟩).node? ⟨"./A.kt"⟩ = some (.file (some ⟨#[120]⟩)) :=
    node?_oneFileTree hcwd (by decide) (by decide) (by decide)
  have hnode' : (oneFileTree ⟨"/w"⟩).node? ⟨"/w/A.kt"⟩ = some (.file (some ⟨#[120]⟩)) :=
    node?_oneFileTree hcwd (by decide) (by decide) (by decide)
  have hfile : (oneFileTree ⟨"/w"⟩).isFile ⟨"./A.kt"⟩ := FileTree.isFile_iff.mpr ⟨_, hnode⟩
  have hfile' : (oneFileTree ⟨"/w"⟩).isFile ⟨"/w/A.kt"⟩ := FileTree.isFile_iff.mpr ⟨_, hnode'⟩
  have htargets : targets ⟨"."⟩ [⟨"A.kt"⟩, ⟨"/w/A.kt"⟩] = [⟨"./A.kt"⟩, ⟨"/w/A.kt"⟩] := by decide
  have hnone : (targets ⟨"."⟩ [⟨"A.kt"⟩, ⟨"/w/A.kt"⟩]).find?
      (isMissing (oneFileTree ⟨"/w"⟩)) = none := by
    rw [htargets]
    simp [isMissing, hfile, hfile']
  have hall : allFiles (oneFileTree ⟨"/w"⟩) ⟨"."⟩ [⟨"A.kt"⟩, ⟨"/w/A.kt"⟩] =
      [⟨"./A.kt"⟩, ⟨"/w/A.kt"⟩] := by
    rw [allFiles, htargets]
    simp [filesUnder, hfile, hfile']
  have hrelative : Path.relativeTo ⟨"."⟩ ⟨"./A.kt"⟩ = "A.kt" := by decide
  have hrelative' : Path.relativeTo ⟨"."⟩ ⟨"/w/A.kt"⟩ = "//w/A.kt" := by decide
  have horder : ¬"A.kt" ≤ "//w/A.kt" := by decide
  have harranged : arrange ⟨"."⟩ [⟨"./A.kt"⟩, ⟨"/w/A.kt"⟩] =
      [("//w/A.kt", ⟨"/w/A.kt"⟩), ("A.kt", ⟨"./A.kt"⟩)] := by
    simp [arrange, hrelative, hrelative', List.mergeSort, dropRepeats, horder]
  have hname : Path.fileName? ⟨"./A.kt"⟩ = some "A.kt" := by decide
  have hname' : Path.fileName? ⟨"/w/A.kt"⟩ = some "A.kt" := by decide
  have haccepted : InputFile.isAcceptedName "A.kt" := by decide +kernel
  rw [value_collect, hnone, hall, harranged]
  simp [value_load? _ _ hnode, value_load? _ _ hnode', hname, hname', isKept, haccepted]

end MigrationAudit.Discovery
