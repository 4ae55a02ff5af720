import MigrationAudit.Settings
import MigrationAudit.Proofs.Ancestors
import Mathlib.Data.List.Find

namespace MigrationAudit

namespace Path

variable {d : Path} {name : String}

theorem names_join_name (htext : d.text ≠ "") (hname : IsName name) :
    (d.join ⟨name⟩).names = d.names ++ [name] := by
  rw [names_join (isAbsolute_of_no_slash hname.no_slash) htext, names, names,
    segments_of_no_slash hname.no_slash,
    namesIn_cons_of_kept (not_or.mpr ⟨hname.not_empty, hname.not_current⟩), namesIn_nil]

theorem getLast?_segments_join_name (htext : d.text ≠ "") (hname : IsName name) :
    (d.join ⟨name⟩).segments.getLast? = some name := by
  rw [getLast?_segments_join (isAbsolute_of_no_slash hname.no_slash) htext,
    segments_of_no_slash hname.no_slash]
  rfl

end Path

namespace FileTree

variable {tree : FileTree} {d e : Path} {name : String}

/-- To a path that ends with a name, its names are the whole way. -/
theorem locate_of_getLast? {p : Path} (hp : p.IsDirect) (hlast : p.segments.getLast? = some name)
    (hname : Path.IsName name) :
    tree.locate p = Place.follow tree.root maxLinks ⟨tree.root, []⟩ p.names := by
  obtain ⟨front, hsegments⟩ := List.getLast?_eq_some_iff.mp hlast
  have hnames : p.names = Path.namesIn front ++ [name] := by
    rw [Path.names, hsegments, Path.namesIn_append,
      Path.namesIn_cons_of_kept (not_or.mpr ⟨hname.not_empty, hname.not_current⟩), Path.namesIn_nil]
  rw [locate_of_isDirect hp, hsegments, Place.follow_concat, hnames]

theorem locate_join_name (hd : d.IsDirect) (hname : Path.IsName name) :
    tree.locate (d.join ⟨name⟩) =
      Place.follow tree.root maxLinks ⟨tree.root, []⟩ (d.names ++ [name]) := by
  have htext := Path.text_ne_of_isAbsolute hd.absolute
  rw [locate_of_getLast? (hd.join_segment hname.no_slash hname.not_parent).1
    (Path.getLast?_segments_join_name htext hname) hname, Path.names_join_name htext hname]

/-- What a directory holds is no matter of how the directory is spelled. -/
theorem holds_join_congr (hd : d.IsDirect) (he : e.IsDirect) (h : d.names = e.names)
    (hname : Path.IsName name) : tree.holds (d.join ⟨name⟩) = tree.holds (e.join ⟨name⟩) := by
  rw [holds, holds, node?, node?, locate_join_name hd hname, locate_join_name he hname, h]

/-- Without links a directory holds just what its node does. -/
theorem holds_join_of_plain (plain : tree.root.Plain) (hd : d.IsDirect) (hname : Path.IsName name) :
    tree.holds (d.join ⟨name⟩) = (tree.root.find? (d.names ++ [name])).isSome := by
  have htext := Path.text_ne_of_isAbsolute hd.absolute
  have hjoin := (hd.join_segment hname.no_slash hname.not_parent).1
  have hlast := Path.getLast?_segments_join_name htext hname
  rw [holds, Bool.eq_iff_iff, Option.isSome_iff_exists, Option.isSome_iff_exists,
    ← Path.names_join_name htext hname]
  constructor
  · rintro ⟨n, hnode⟩
    exact ⟨n, find?_of_node? plain hjoin hnode⟩
  · rintro ⟨n, hfind⟩
    exact ⟨n, node?_of_find? plain hjoin hfind (.inr ⟨name, hlast, hname⟩)⟩

end FileTree

namespace Settings

variable {tree : FileTree} {start d e : Path}

def fileNames : List String := ["droidmig.toml", "droidmig.yaml", "droidmig.yml"]

/-- A directory holds a settings file or what a repository is kept in. -/
def IsMarked (tree : FileTree) (d : Path) : Prop :=
  ∃ mark ∈ fileNames ++ [".git"], tree.holds (d.join ⟨mark⟩)

theorem isRoot_iff : isRoot tree d ↔ IsMarked tree d := List.any_eq_true

theorem isRoot_eq_false_iff : isRoot tree d = false ↔ ¬IsMarked tree d := by
  rw [← isRoot_iff, Bool.not_eq_true]

theorem isRoot_eq_isSome (tree : FileTree) (d : Path) :
    isRoot tree d = (rootMarks.find? fun mark => tree.holds (d.join ⟨mark⟩)).isSome :=
  List.isSome_find?.symm

theorem isName_of_mem_rootMarks : ∀ mark ∈ rootMarks, Path.IsName mark := by decide

theorem isRoot_congr (hd : d.IsDirect) (he : e.IsDirect) (h : d.names = e.names) :
    isRoot tree d = isRoot tree e := by
  rw [isRoot_eq_isSome, isRoot_eq_isSome]
  apply congrArg Option.isSome
  apply List.find?_congr
  intro mark hmark
  exact FileTree.holds_join_congr hd he h (isName_of_mem_rootMarks mark hmark)

theorem isRoot_of_plain (plain : tree.root.Plain) (hd : d.IsDirect) :
    isRoot tree d = rootMarks.any fun mark => (tree.root.find? (d.names ++ [mark])).isSome := by
  rw [isRoot_eq_isSome, ← List.isSome_find?]
  apply congrArg Option.isSome
  apply List.find?_congr
  intro mark hmark
  exact FileTree.holds_join_of_plain plain hd (isName_of_mem_rootMarks mark hmark)

/-- The directory `root` is the nearest one at or above `start` that is marked, or `start` if none
is. -/
structure IsNearest (tree : FileTree) (start root : Path) : Prop where
  mem : root ∈ start :: start.ancestors
  direct : root.IsDirect
  above : root.names <+: start.names
  nearer : ∀ e : Path, e.IsDirect → e.names <+: start.names → root.names.length < e.names.length →
    ¬IsMarked tree e
  marked : IsMarked tree root ∨
    root = start ∧ ∀ e : Path, e.IsDirect → e.names <+: start.names → ¬IsMarked tree e

/-- The search for the root passes unmarked directories only. -/
theorem exists_searched (tree : FileTree) (start : Path) :
    ∃ before after, start :: start.ancestors = before ++ detectRoot tree start :: after ∧
      ∀ d ∈ before, isRoot tree d = false := by
  unfold detectRoot
  cases hfind : (start :: start.ancestors).find? (isRoot tree) with
  | none => exact ⟨[], start.ancestors, rfl, fun d hd => absurd hd List.not_mem_nil⟩
  | some root =>
    obtain ⟨-, before, after, hlist, hbefore⟩ := List.find?_eq_some_iff_append.mp hfind
    exact ⟨before, after, hlist, by simpa using hbefore⟩

section

variable (direct : start.IsDirect)
include direct

theorem not_isMarked_of_nearer {before after : List Path}
    (hlist : start :: start.ancestors = before ++ d :: after)
    (hbefore : ∀ e ∈ before, isRoot tree e = false) (he : e.IsDirect)
    (hbelow : e.names <+: start.names) (hnearer : d.names.length < e.names.length) :
    ¬IsMarked tree e := by
  -- The directory is met on the way up, and from `d` on there are none with so many names.
  obtain ⟨e', hmem, hnames⟩ := direct.exists_mem_ancestors_iff.mpr hbelow
  have hdirect := direct.isDirect_of_mem hmem
  have hpairwise := direct.pairwise_ancestors
  rw [hlist] at hmem hpairwise
  rw [← hnames] at hnearer
  have hafter := (List.pairwise_cons.mp (List.pairwise_append.mp hpairwise).2.1).1
  rcases List.mem_append.mp hmem with hmem | hmem
  · rw [← isRoot_eq_false_iff, isRoot_congr he hdirect hnames.symm]
    exact hbefore e' hmem
  · rcases List.mem_cons.mp hmem with rfl | hmem
    · exact absurd hnearer (Nat.lt_irrefl _)
    · exact absurd hnearer (Nat.lt_asymm (hafter e' hmem))

/-- A directory on the way up is one of those that the names of the start lead through. -/
theorem mem_of_searched {before after : List Path}
    (hlist : start :: start.ancestors = before ++ d :: after) :
    d ∈ start :: start.ancestors ∧ d.IsDirect ∧ d.names <+: start.names := by
  have hmem : d ∈ start :: start.ancestors := by
    rw [hlist]
    exact List.mem_append_cons_self
  exact ⟨hmem, direct.isDirect_of_mem hmem, direct.exists_mem_ancestors_iff.mp ⟨d, hmem, rfl⟩⟩

theorem isNearest_detectRoot (tree : FileTree) : IsNearest tree start (detectRoot tree start) := by
  obtain ⟨before, after, hlist, hbefore⟩ := exists_searched tree start
  obtain ⟨hmem, hdirect, hbelow⟩ := mem_of_searched direct hlist
  refine ⟨hmem, hdirect, hbelow, fun e => not_isMarked_of_nearer direct hlist hbefore, ?_⟩
  unfold detectRoot
  cases hfind : (start :: start.ancestors).find? (isRoot tree) with
  | some root => exact .inl (isRoot_iff.mp (List.find?_some hfind))
  | none =>
    refine .inr ⟨rfl, fun e he hbelow => ?_⟩
    obtain ⟨e', hmem, hnames⟩ := direct.exists_mem_ancestors_iff.mpr hbelow
    rw [← isRoot_eq_false_iff, isRoot_congr he (direct.isDirect_of_mem hmem) hnames.symm]
    simpa using List.find?_eq_none.mp hfind e' hmem

end

end Settings

end MigrationAudit
