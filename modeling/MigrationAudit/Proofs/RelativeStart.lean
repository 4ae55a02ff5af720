import MigrationAudit.Proofs.Addresses
import MigrationAudit.Proofs.NearestConfig

namespace MigrationAudit

section Lists

variable {α β γ : Type}

/-- Of two lists in a row, the first parts that reach into the second come before those of the
first. -/
theorem map_reverse_tails_append (a b : List α) : (a ++ b).reverse.tails.map List.reverse =
    (b.reverse.tails.map List.reverse).map (a ++ ·) ++ a.reverse.tails.tail.map List.reverse := by
  rw [List.reverse_append, List.tails_append, List.map_append, List.map_map, List.map_map]
  congr 2
  funext reversed
  rw [Function.comp_apply, Function.comp_apply, List.reverse_append, List.reverse_reverse]

theorem not_prefix_of_mem_tail {a part : List α}
    (h : part ∈ a.reverse.tails.tail.map List.reverse) : ¬a <+: part := by
  obtain ⟨reversed, hmem, rfl⟩ := List.mem_map.mp h
  have hshorter : reversed.length < a.reverse.length := by
    cases hreverse : a.reverse with
    | nil =>
      rw [hreverse] at hmem
      cases hmem
    | cons c rest =>
      rw [hreverse, List.tails_cons, List.tail_cons, List.mem_tails] at hmem
      exact Nat.lt_succ_of_le hmem.length_le
  intro hbelow
  have hle := hbelow.length_le
  rw [List.length_reverse] at hshorter hle
  exact Nat.not_le_of_lt hshorter hle

/-- Searches for what is told by the same key find the same. -/
theorem map_find?_congr {f : α → γ} {g : β → γ} {p : α → Bool} {q : β → Bool} {as : List α}
    {bs : List β} (h : as.map f = bs.map g) (hpq : ∀ a ∈ as, ∀ b ∈ bs, f a = g b → p a = q b) :
    (as.find? p).map f = (bs.find? q).map g := by
  induction as generalizing bs with
  | nil =>
    obtain rfl := List.map_eq_nil_iff.mp h.symm
    rfl
  | cons a as ih =>
    cases bs with
    | nil => cases h
    | cons b bs =>
      obtain ⟨hfirst, hrest⟩ := List.cons.inj h
      have hsame := hpq a List.mem_cons_self b List.mem_cons_self hfirst
      rw [List.find?_cons, List.find?_cons, hsame]
      cases q b with
      | true => exact congrArg some hfirst
      | false =>
        exact ih hrest fun a ha b hb =>
          hpq a (List.mem_cons_of_mem _ ha) b (List.mem_cons_of_mem _ hb)

end Lists

namespace FileTree

variable {tree : FileTree} {p q : Path} {name : String}

/-- Two spellings of one directory: whatever is looked for in the one is looked for in the other. -/
structure SameDirectory (tree : FileTree) (p q : Path) : Prop where
  address : tree.address p = tree.address q
  locate : ∀ name, Path.IsName name → tree.locate (p.join ⟨name⟩) = tree.locate (q.join ⟨name⟩)

section

variable (hcwd : tree.workingDirectory.IsDirect)
include hcwd

theorem locate_join_name_of_isForward (hp : p.IsForward) (htext : p.text ≠ "")
    (hname : Path.IsName name) :
    tree.locate (p.join ⟨name⟩) =
      Place.follow tree.root maxLinks ⟨tree.root, []⟩ (tree.address p ++ [name]) := by
  have hrelative := Path.isAbsolute_of_no_slash hname.no_slash
  have hforward : (p.join ⟨name⟩).IsForward := by
    apply hp.join
    rw [Path.IsForward, Path.segments_of_no_slash hname.no_slash, List.mem_singleton]
    exact hname.not_parent.symm
  have hlast : (tree.workingDirectory.join (p.join ⟨name⟩)).segments.getLast? = some name := by
    rw [getLast?_segments_workingDirectory_join hcwd, Path.getLast?_segments_join_name htext hname]
  have haddress : tree.address (p.join ⟨name⟩) = tree.address p ++ [name] :=
    address_eq_append hcwd (Path.isAbsolute_join_eq hrelative htext)
      (Path.names_join_name htext hname)
  rw [← locate_join hcwd (Path.text_join_ne hrelative htext),
    locate_of_getLast? (isDirect_join hcwd hforward) hlast hname, ← haddress]
  rfl

theorem SameDirectory.of_address (hp : p.IsForward) (hptext : p.text ≠ "") (hq : q.IsForward)
    (hqtext : q.text ≠ "") (h : tree.address p = tree.address q) : tree.SameDirectory p q := by
  refine ⟨h, fun name hname => ?_⟩
  rw [locate_join_name_of_isForward hcwd hp hptext hname,
    locate_join_name_of_isForward hcwd hq hqtext hname, h]

end

end FileTree

namespace Settings

variable {tree : FileTree} {start abs p q : Path}

theorem isRoot_eq_of_sameDirectory (h : tree.SameDirectory p q) :
    isRoot tree p = isRoot tree q := by
  rw [isRoot_eq_isSome, isRoot_eq_isSome]
  apply congrArg Option.isSome
  apply List.find?_congr
  intro mark hmark
  have hlocate := h.locate mark (isName_of_mem_rootMarks mark hmark)
  rw [FileTree.holds, FileTree.holds, FileTree.node?, FileTree.node?, hlocate]

theorem sameDirectory_of_mem (hcwd : tree.workingDirectory.IsDirect) (forward : start.IsForward)
    (htext : start.text ≠ "") (direct : abs.IsDirect) (hp : p ∈ start :: start.ancestors)
    (hq : q ∈ abs :: abs.ancestors) (h : tree.address p = tree.address q) :
    tree.SameDirectory p q := by
  obtain ⟨-, hforward, hptext⟩ := forward.of_mem_ancestors htext hp
  have hdirect := direct.isDirect_of_mem hq
  exact .of_address hcwd hforward hptext hdirect.isForward
    (Path.text_ne_of_isAbsolute hdirect.absolute) h

/-- A directory that the search from a relative start can come to: one below the working directory,
or the working directory if the start begins with a dot. -/
structure InSight (tree : FileTree) (start d : Path) : Prop where
  below : tree.workingDirectory.names <+: tree.address d
  dotted : tree.address d = tree.workingDirectory.names → start.start? = some .current

section

variable (hcwd : tree.workingDirectory.IsDirect) (relative : start.isAbsolute = false)
  (forward : start.IsForward) (htext : start.text ≠ "")
include hcwd relative forward htext

theorem address_of_mem_ancestors {d : Path} (hd : d ∈ start :: start.ancestors) :
    tree.address d = tree.workingDirectory.names ++ d.names := by
  apply FileTree.address_of_relative hcwd
  rw [Path.isAbsolute_eq_of_start?_eq (forward.of_mem_ancestors htext hd).1, relative]

variable (direct : abs.IsDirect) (hnames : abs.names = tree.address start)
include direct hnames

/-- Above the names of a relative start come those of the working directory. -/
theorem map_names_ancestors : (abs :: abs.ancestors).map Path.names =
    (start :: start.ancestors).map tree.address ++
      ((if start.start? = none then [tree.workingDirectory.names] else []) ++
        tree.workingDirectory.names.reverse.tails.tail.map List.reverse) := by
  obtain ⟨-, hparts⟩ := forward.ancestors htext
  have hmap : (start :: start.ancestors).map tree.address =
      ((start :: start.ancestors).map Path.names).map (tree.workingDirectory.names ++ ·) := by
    rw [List.map_map]
    exact List.map_congr_left fun d hd => address_of_mem_ancestors hcwd relative forward htext hd
  have hstop : (if start.start? = none then [tree.workingDirectory.names] else []) =
      (if start.start? = none then [[]] else []).map (tree.workingDirectory.names ++ ·) := by
    split_ifs <;> simp
  rw [direct.ancestors.2, hnames, FileTree.address_of_relative hcwd relative, hmap, hstop,
    ← List.append_assoc, ← List.map_append, hparts]
  exact map_reverse_tails_append _ _

/-- The directories at and above an absolute start: first those at and above the relative start,
then those that are out of its sight. -/
theorem exists_ancestors_eq : ∃ seen unseen, abs :: abs.ancestors = seen ++ unseen ∧
    (start :: start.ancestors).map tree.address = seen.map tree.address ∧
    (∀ d ∈ seen, InSight tree start d) ∧ ∀ d ∈ unseen, ¬InSight tree start d := by
  obtain ⟨seen, unseen, hlist, hseen, hunseen⟩ :=
    List.map_eq_append_iff.mp (map_names_ancestors hcwd relative forward htext direct hnames)
  have hdirect : ∀ d ∈ seen ++ unseen, tree.address d = d.names := fun d hd =>
    FileTree.address_of_isAbsolute (direct.isDirect_of_mem (hlist ▸ hd)).absolute
  refine ⟨seen, unseen, hlist, ?_, ?_, ?_⟩
  · rw [← hseen]
    exact List.map_congr_left fun d hd => (hdirect d (List.mem_append_left _ hd)).symm
  · intro d hd
    obtain ⟨e, he, haddress⟩ : ∃ e ∈ start :: start.ancestors, tree.address e = d.names :=
      List.mem_map.mp (hseen ▸ List.mem_map_of_mem hd)
    obtain ⟨hstart, -, hetext⟩ := forward.of_mem_ancestors htext he
    rw [address_of_mem_ancestors hcwd relative forward htext he] at haddress
    refine ⟨⟨e.names, ?_⟩, fun heq => ?_⟩
    · rw [haddress, hdirect d (List.mem_append_left _ hd)]
    · rw [hdirect d (List.mem_append_left _ hd), ← haddress] at heq
      refine (Path.start?_of_relative relative).resolve_right fun hnone => ?_
      exact Path.names_ne_nil_of_start? (hstart.trans hnone) hetext (by simpa using heq)
  · intro d hd hin
    have hmem : d.names ∈ (if start.start? = none then [tree.workingDirectory.names] else []) ++
        tree.workingDirectory.names.reverse.tails.tail.map List.reverse :=
          hunseen ▸ List.mem_map_of_mem hd
    rw [← hdirect d (List.mem_append_right _ hd)] at hmem
    rcases List.mem_append.mp hmem with hmem | hmem
    · split_ifs at hmem with hnone
      · rw [hin.dotted (List.mem_singleton.mp hmem)] at hnone
        cases hnone
      · cases hmem
    · exact not_prefix_of_mem_tail hmem hin.below

/-- Either both searches come to a marked directory and it is the same, or the one from the relative
start comes to none and the other to none that is in sight. -/
theorem find?_isRoot_cases :
    (∃ root root', (start :: start.ancestors).find? (isRoot tree) = some root ∧
      (abs :: abs.ancestors).find? (isRoot tree) = some root' ∧
      tree.SameDirectory root root' ∧ InSight tree start root') ∨
    (start :: start.ancestors).find? (isRoot tree) = none ∧
      ∀ root', (abs :: abs.ancestors).find? (isRoot tree) = some root' →
        ¬InSight tree start root' := by
  obtain ⟨seen, unseen, hlist, hseen, hinSight, houtOfSight⟩ :=
    exists_ancestors_eq hcwd relative forward htext direct hnames
  have hmem {d : Path} (hd : d ∈ seen) : d ∈ abs :: abs.ancestors :=
    hlist ▸ List.mem_append_left _ hd
  have hfind : ((start :: start.ancestors).find? (isRoot tree)).map tree.address =
      (seen.find? (isRoot tree)).map tree.address :=
    map_find?_congr hseen fun d hd e he h =>
      isRoot_eq_of_sameDirectory (sameDirectory_of_mem hcwd forward htext direct hd (hmem he) h)
  rw [hlist, List.find?_append]
  cases hstart : (start :: start.ancestors).find? (isRoot tree) with
  | some root =>
    rw [hstart, Option.map_some] at hfind
    obtain ⟨root', hroot', haddress⟩ := Option.map_eq_some_iff.mp hfind.symm
    have hseenRoot := List.mem_of_find?_eq_some hroot'
    refine .inl ⟨root, root', rfl, by rw [hroot', Option.some_or], ?_, hinSight root' hseenRoot⟩
    exact sameDirectory_of_mem hcwd forward htext direct (List.mem_of_find?_eq_some hstart)
      (hmem hseenRoot) haddress.symm
  | none =>
    rw [hstart, Option.map_none] at hfind
    rw [Option.map_eq_none_iff.mp hfind.symm, Option.none_or]
    exact .inr ⟨rfl, fun root' hroot' => houtOfSight root' (List.mem_of_find?_eq_some hroot')⟩

/-- What the search from a relative start finds is what it finds from an absolute spelling of the
start, if that is in sight; if it is not, nothing is found. -/
theorem detectRoot_of_relative :
    (tree.SameDirectory (detectRoot tree start) (detectRoot tree abs) ↔
      (IsMarked tree (detectRoot tree abs) → InSight tree start (detectRoot tree abs))) ∧
    (IsMarked tree (detectRoot tree abs) → ¬InSight tree start (detectRoot tree abs) →
      detectRoot tree start = start ∧ ¬IsMarked tree start ∧ load? tree start = .ok none) := by
  rw [detectRoot, detectRoot]
  rcases find?_isRoot_cases hcwd relative forward htext direct hnames with
    ⟨root, root', hroot, hroot', hsame, hin⟩ | ⟨hnone, hout⟩
  · rw [hroot, hroot', Option.getD_some, Option.getD_some]
    exact ⟨⟨fun _ _ => hin, fun _ => hsame⟩, fun _ hout => absurd hin hout⟩
  · have hunmarked : isRoot tree start = false := by
      simpa using List.find?_eq_none.mp hnone start List.mem_cons_self
    rw [hnone, Option.getD_none]
    cases hroot : (abs :: abs.ancestors).find? (isRoot tree) with
    | some root =>
      have hmarked : isRoot tree root := List.find?_some hroot
      rw [Option.getD_some]
      refine ⟨⟨fun hsame _ => ?_, fun hin =>
        absurd (hin (isRoot_iff.mp hmarked)) (hout root hroot)⟩, fun _ _ =>
        ⟨rfl, isRoot_eq_false_iff.mp hunmarked, load?_of_not_isRoot hunmarked⟩⟩
      rw [← isRoot_eq_of_sameDirectory hsame, hunmarked] at hmarked
      cases hmarked
    | none =>
      have hsame : tree.SameDirectory start abs := by
        apply sameDirectory_of_mem hcwd forward htext direct List.mem_cons_self List.mem_cons_self
        rw [FileTree.address_of_isAbsolute direct.absolute, hnames]
      have habs : ¬IsMarked tree abs := by
        rwa [← isRoot_eq_false_iff, ← isRoot_eq_of_sameDirectory hsame]
      rw [Option.getD_none]
      exact ⟨⟨fun _ hmarked => absurd hmarked habs, fun _ => hsame⟩, fun hmarked =>
        absurd hmarked habs⟩

end

/-- What a search from a path without names above it finds is the path itself. -/
theorem detectRoot_of_ancestors_eq_nil (h : start.ancestors = []) :
    detectRoot tree start = start := by
  rw [detectRoot, h]
  cases hfind : [start].find? (isRoot tree) with
  | none => rfl
  | some root => exact List.mem_singleton.mp (List.mem_of_find?_eq_some hfind)

def nestedTree : FileTree where
  root := .directory [("w", .directory [
    ("app", .directory [("A.kt", .file (some "x".toUTF8))]),
    ("droidmig.toml", .file (some "".toUTF8))])]
  workingDirectory := ⟨"/w"⟩

theorem plain_nestedTree : nestedTree.root.Plain := by
  have hnested : (Node.directory [("A.kt", .file (some "x".toUTF8))]).Plain :=
    .directory _ (by decide) (by decide) (by simpa using .file _)
  have hworking : (Node.directory [
      ("app", .directory [("A.kt", .file (some "x".toUTF8))]),
      ("droidmig.toml", .file (some "".toUTF8))]).Plain :=
    .directory _ (by decide) (by decide) (by simpa using ⟨hnested, .file _⟩)
  exact .directory _ (by decide) (by decide) (by simpa using hworking)

theorem isDirect_workingDirectory_nestedTree : nestedTree.workingDirectory.IsDirect :=
  ⟨by decide, by decide⟩

theorem detectRoot_nestedTree : detectRoot nestedTree ⟨"/w/app"⟩ = ⟨"/w"⟩ := by
  have hnested : Path.IsDirect ⟨"/w/app"⟩ := ⟨by decide, by decide⟩
  have hworking : Path.IsDirect ⟨"/w"⟩ := isDirect_workingDirectory_nestedTree
  have hunmarked : isRoot nestedTree ⟨"/w/app"⟩ = false := by
    rw [isRoot_of_plain plain_nestedTree hnested]
    decide
  have hmarked : isRoot nestedTree ⟨"/w"⟩ = true := by
    rw [isRoot_of_plain plain_nestedTree hworking]
    decide
  have hancestors : Path.ancestors ⟨"/w/app"⟩ = [⟨"/w"⟩, ⟨"/"⟩] := by decide
  rw [detectRoot, hancestors, List.find?_cons, hunmarked, List.find?_cons, hmarked]
  rfl

/-- The working directory is found from below if the start begins with a dot. -/
theorem detectRoot_of_relative_dotted :
    nestedTree.isDirectory ⟨"./app"⟩ ∧
      nestedTree.address ⟨"./app"⟩ = nestedTree.address ⟨"/w/app"⟩ ∧
      nestedTree.SameDirectory (detectRoot nestedTree ⟨"./app"⟩)
        (detectRoot nestedTree ⟨"/w/app"⟩) := by
  have forward : Path.IsForward ⟨"./app"⟩ := by decide
  have direct : Path.IsDirect ⟨"/w/app"⟩ := ⟨by decide, by decide⟩
  have haddress : nestedTree.address ⟨"./app"⟩ = ["w", "app"] := by decide
  have hin : InSight nestedTree ⟨"./app"⟩ ⟨"/w"⟩ := ⟨by decide, by decide⟩
  refine ⟨?_, by decide, ?_⟩
  · rw [FileTree.isDirectory_iff_address plain_nestedTree
      isDirect_workingDirectory_nestedTree forward (by decide), haddress]
    exact ⟨_, rfl⟩
  · refine (detectRoot_of_relative isDirect_workingDirectory_nestedTree (by decide)
      forward (by decide) direct (by decide)).1.mpr fun _ => ?_
    rw [detectRoot_nestedTree]
    exact hin

/-- Without the dot the settings in the working directory are missed. -/
theorem working_directory_missed :
    nestedTree.isDirectory ⟨"app"⟩ ∧ nestedTree.address ⟨"app"⟩ = nestedTree.address ⟨"/w/app"⟩ ∧
      detectRoot nestedTree ⟨"app"⟩ = ⟨"app"⟩ ∧ detectRoot nestedTree ⟨"/w/app"⟩ = ⟨"/w"⟩ ∧
      ¬nestedTree.SameDirectory (detectRoot nestedTree ⟨"app"⟩)
        (detectRoot nestedTree ⟨"/w/app"⟩) := by
  have forward : Path.IsForward ⟨"app"⟩ := by decide
  have haddress : nestedTree.address ⟨"app"⟩ = ["w", "app"] := by decide
  have hroot : detectRoot nestedTree ⟨"app"⟩ = ⟨"app"⟩ := detectRoot_of_ancestors_eq_nil (by decide)
  refine ⟨?_, by decide, hroot, detectRoot_nestedTree, fun hsame => ?_⟩
  · rw [FileTree.isDirectory_iff_address plain_nestedTree
      isDirect_workingDirectory_nestedTree forward (by decide), haddress]
    exact ⟨_, rfl⟩
  · have hdiffers := hsame.address
    rw [hroot, detectRoot_nestedTree] at hdiffers
    exact absurd hdiffers (by decide)

end Settings

end MigrationAudit
