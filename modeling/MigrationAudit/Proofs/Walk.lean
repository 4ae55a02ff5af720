import MigrationAudit.Proofs.Lookup
import MigrationAudit.Proofs.Spelling

namespace MigrationAudit

namespace FileTree

def pathBelow (directory : Path) (names : List String) : Path := names.foldl entryPath directory

/-- Where a walk can begin. Only a lone dot may stand in front, for it is not spelled out. -/
structure IsStart (p : Path) : Prop where
  forward : p.IsForward
  not_empty : p.text ≠ ""
  undotted : p.text ≠ "." → p.start? ≠ some .current

structure Extends (p q : Path) (names : List String) : Prop where
  start : IsStart q
  isAbsolute : q.isAbsolute = p.isAbsolute
  names : q.names = p.names ++ names

section Spelling

variable {p q : Path} {names : List String}

theorem IsStart.start?_ne (hp : IsStart p) (hne : p.names ≠ []) : p.start? ≠ some .current := by
  refine hp.undotted fun hdot => hne ?_
  obtain rfl : p = ⟨"."⟩ := congrArg Path.mk hdot
  rfl

theorem IsStart.entryPath (hp : IsStart p) {s : String} (hslash : '/' ∉ s.toList) (hup : s ≠ "..")
    (hempty : p.text = "." → s ≠ "") :
    Extends p (entryPath p s) (Path.namesIn [s]) ∧
      (FileTree.entryPath p s).segments.getLast? = some s := by
  have hsegments : Path.segments ⟨s⟩ = [s] := Path.segments_of_no_slash hslash
  have hrelative : Path.isAbsolute ⟨s⟩ = false := Path.isAbsolute_of_no_slash hslash
  have hforward : Path.IsForward ⟨s⟩ := by simpa [Path.IsForward, hsegments] using hup.symm
  unfold FileTree.entryPath
  split_ifs with hdot
  · obtain rfl : p = ⟨"."⟩ := congrArg Path.mk hdot
    refine ⟨⟨⟨hforward, hempty rfl, fun hs => ?_⟩, hrelative, ?_⟩, by rw [hsegments]; rfl⟩
    · rw [Path.start?, hrelative, hsegments]
      simpa using hs
    · rw [Path.names, hsegments]
      rfl
  · refine ⟨⟨⟨hp.forward.join hforward, Path.text_join_ne hrelative hp.not_empty, fun _ => ?_⟩,
      Path.isAbsolute_join_eq hrelative hp.not_empty, ?_⟩, ?_⟩
    · rw [Path.start?_join hrelative hp.not_empty]
      exact hp.undotted hdot
    · rw [Path.names_join hrelative hp.not_empty, Path.names, Path.names, hsegments]
    · rw [Path.getLast?_segments_join hrelative hp.not_empty, hsegments]
      rfl

theorem Extends.trans {a b : List String} {r : Path} (h : Extends p q a) (h' : Extends q r b) :
    Extends p r (a ++ b) :=
  ⟨h'.start, h'.isAbsolute.trans h.isAbsolute, by rw [h'.names, h.names, List.append_assoc]⟩

theorem IsStart.extends_pathBelow (hp : IsStart p) (hnames : ∀ s ∈ names, Path.IsName s) :
    Extends p (pathBelow p names) names := by
  induction names generalizing p with
  | nil => exact ⟨hp, rfl, (List.append_nil _).symm⟩
  | cons name names ih =>
    have hname := hnames name List.mem_cons_self
    obtain ⟨hentry, -⟩ := hp.entryPath hname.no_slash hname.not_parent fun _ => hname.not_empty
    have hkept : Path.namesIn [name] = [name] :=
      Path.namesIn_cons_of_kept (not_or.mpr ⟨hname.not_empty, hname.not_current⟩) []
    rw [hkept] at hentry
    exact hentry.trans (ih hentry.start fun s hs => hnames s (List.mem_cons_of_mem _ hs))

theorem IsStart.getLast?_pathBelow (hp : IsStart p) (hnames : ∀ s ∈ names, Path.IsName s)
    (hne : names ≠ []) :
    ∃ name, (pathBelow p names).segments.getLast? = some name ∧ Path.IsName name := by
  obtain ⟨front, name, rfl⟩ := (List.eq_nil_or_concat names).resolve_left hne
  have hname : Path.IsName name := hnames name (by simp)
  have hnames' : ∀ s ∈ front, Path.IsName s := fun s hs => hnames s (by simp [hs])
  have hfront := (hp.extends_pathBelow hnames').start
  have hlast : pathBelow p (front.concat name) = FileTree.entryPath (pathBelow p front) name := by
    simp [pathBelow]
  rw [hlast]
  exact ⟨name, (hfront.entryPath hname.no_slash hname.not_parent fun _ => hname.not_empty).2, hname⟩

theorem IsStart.of_isDirect (hp : p.IsDirect) : IsStart p :=
  ⟨hp.isForward, Path.text_ne_of_isAbsolute hp.absolute, fun _ => by simp [hp.start?_eq]⟩

theorem isDirect_pathBelow (hp : p.IsDirect) (hnames : ∀ s ∈ names, Path.IsName s) :
    (pathBelow p names).IsDirect ∧ (pathBelow p names).names = p.names ++ names := by
  have hextends := (IsStart.of_isDirect hp).extends_pathBelow hnames
  exact ⟨⟨hextends.isAbsolute.trans hp.absolute, hextends.start.forward⟩, hextends.names⟩

/-- The walk spells the directory its own way, but does not leave it. -/
theorem exists_walkRoot? (hp : p.IsDirect) :
    ∃ start, walkRoot? p = some start ∧ start.IsDirect ∧ start.names = p.names := by
  have hslash : Path.IsDirect ⟨"/"⟩ := ⟨by decide, by decide⟩
  have hroot : Path.names ⟨"/"⟩ = [] := by decide
  obtain ⟨hstart, hnames⟩ := hslash.foldl_join
    (fun s hs => Path.no_slash_of_mem_segments (List.mem_of_mem_tail hs))
    (fun hmem => hp.no_parent (List.mem_of_mem_tail hmem))
  refine ⟨_, by rw [walkRoot?, if_pos hp.absolute], hstart, ?_⟩
  rw [hnames, hroot, Path.names_of_isAbsolute hp.absolute, List.nil_append]

end Spelling

section Below

variable {root : Node} {links : Nat} {place : Place} {path q : Path}

/-- What the walk lists of a directory: each entry, and what it lists of the entry. -/
theorem mem_below_iff (plain : place.node.Plain) :
    q ∈ below root links place path ↔
      ∃ e ∈ place.node.entries, q = entryPath path e.1 ∨
        q ∈ below root links (place.child e.2) (entryPath path e.1) := by
  rw [below, List.mem_flatMap]
  constructor
  · rintro ⟨⟨⟨name, node⟩, hmem⟩, -, hq⟩
    refine ⟨(name, node), hmem, ?_⟩
    have hchild := plain.child_of_mem hmem
    cases hchild with
    | file content => simpa using hq
    | directory entries _ _ _ => simpa using hq
  · rintro ⟨⟨name, node⟩, hmem, hq⟩
    refine ⟨⟨(name, node), hmem⟩, List.mem_attach _ _, ?_⟩
    have hchild := plain.child_of_mem hmem
    cases hchild with
    | file content => simpa using hq
    | directory entries _ _ _ => simpa using hq

/-- The walk lists whatever stands below the directory, at any depth. -/
theorem mem_below (plain : place.node.Plain) :
    q ∈ below root links place path ↔
      ∃ names, names ≠ [] ∧ (place.node.find? names).isSome ∧ q = pathBelow path names := by
  generalize hnode : place.node = n at plain
  induction plain generalizing place path with
  | file content =>
    have hplain : place.node.Plain := hnode ▸ .file content
    rw [mem_below_iff hplain, hnode]
    constructor
    · rintro ⟨e, he, -⟩
      exact absurd he List.not_mem_nil
    · rintro ⟨names, hne, hsome, -⟩
      obtain ⟨name, names, rfl⟩ := List.exists_cons_of_ne_nil hne
      exact absurd hsome (by simp [Node.find?, Node.entries])
  | directory entries isName distinct plain ih =>
    have hplain : (Node.directory entries).Plain := .directory entries isName distinct plain
    rw [mem_below_iff (hnode ▸ hplain), hnode]
    constructor
    · rintro ⟨⟨name, child⟩, he, rfl | hq⟩
      · refine ⟨[name], List.cons_ne_nil _ _, ?_, rfl⟩
        rw [Node.find?, hplain.lookup_of_mem he]
        rfl
      · obtain ⟨names, -, hsome, rfl⟩ := (ih (name, child) he rfl).mp hq
        refine ⟨name :: names, List.cons_ne_nil _ _, ?_, rfl⟩
        rw [Node.find?, hplain.lookup_of_mem he]
        exact hsome
    · rintro ⟨names, hne, hsome, rfl⟩
      obtain ⟨name, names, rfl⟩ := List.exists_cons_of_ne_nil hne
      obtain ⟨m, hfind⟩ := Option.isSome_iff_exists.mp hsome
      obtain ⟨child, hlookup, hrest⟩ := Option.bind_eq_some_iff.mp hfind
      have he := Node.mem_of_lookup hlookup
      refine ⟨(name, child), he, ?_⟩
      by_cases hnil : names = []
      · subst hnil
        exact .inl rfl
      · refine .inr ((ih (name, child) he rfl).mpr ⟨names, hnil, ?_, rfl⟩)
        rw [hrest]
        rfl

end Below

variable {tree : FileTree} {target q : Path}

theorem exists_walk_eq (ht : target.IsDirect) (hdir : tree.isDirectory target) :
    ∃ start links place, tree.locate target = some (links, place) ∧
      tree.walk target = below tree.root links place start ∧
      start.IsDirect ∧ start.names = target.names := by
  obtain ⟨start, hroot, hstart, hnames⟩ := exists_walkRoot? ht
  obtain ⟨links, place, hlocate⟩ := exists_locate_of_isDirectory hdir
  exact ⟨start, links, place, hlocate, by rw [walk, hroot, hlocate], hstart, hnames⟩

/-- The walk finds only what is below the target. -/
theorem names_of_mem_walk (plain : tree.root.Plain) (ht : target.IsDirect)
    (hdir : tree.isDirectory target) (hq : q ∈ tree.walk target) :
    q.IsDirect ∧ ∃ names, names ≠ [] ∧ q.names = target.names ++ names := by
  obtain ⟨start, links, place, hlocate, hwalk, hstart, hnames⟩ := exists_walk_eq ht hdir
  have hplace := locate_eq_some plain ht hlocate
  have hplain := plain.of_find? hplace
  rw [hwalk] at hq
  obtain ⟨names, hne, hsome, rfl⟩ := (mem_below hplain).mp hq
  obtain ⟨n, hfind⟩ := Option.isSome_iff_exists.mp hsome
  obtain ⟨hdirect, hspelled⟩ := isDirect_pathBelow hstart (hplain.isName_of_find? hfind)
  exact ⟨hdirect, names, hne, by rw [hspelled, hnames]⟩

/-- Every file below the target is found. -/
theorem exists_mem_walk (plain : tree.root.Plain) (ht : target.IsDirect)
    (hdir : tree.isDirectory target) {names : List String} {n : Node} (hne : names ≠ [])
    (hfind : tree.root.find? (target.names ++ names) = some n) :
    ∃ q ∈ tree.walk target, tree.node? q = some n ∧ q.names = target.names ++ names := by
  obtain ⟨start, links, place, hlocate, hwalk, hstart, hnames⟩ := exists_walk_eq ht hdir
  have hplace := locate_eq_some plain ht hlocate
  have hplain := plain.of_find? hplace
  rw [Node.find?_append, hplace, Option.bind_some] at hfind
  have hisName := hplain.isName_of_find? hfind
  obtain ⟨hdirect, hspelled⟩ := isDirect_pathBelow hstart hisName
  rw [hnames] at hspelled
  refine ⟨pathBelow start names, ?_, ?_, hspelled⟩
  · rw [hwalk]
    exact (mem_below hplain).mpr ⟨names, hne, by rw [hfind]; rfl, rfl⟩
  · refine node?_of_find? plain
      hdirect ?_ (.inr ((IsStart.of_isDirect hstart).getLast?_pathBelow hisName hne))
    rw [hspelled, Node.find?_append, hplace]
    exact hfind

end FileTree

end MigrationAudit
