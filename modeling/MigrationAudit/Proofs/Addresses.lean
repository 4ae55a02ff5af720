import MigrationAudit.Proofs.Walk

namespace MigrationAudit

theorem Place.isDirectory_of_follow_last {root : Node} {links left : Nat} {p q : Place}
    {segments : List String} {s : String} (hp : p.node.Plain) (hup : ".." ∉ segments)
    (h : follow root links p segments = some (left, q)) (hlast : segments.getLast? = some s)
    (hskip : s = "" ∨ s = ".") : q.node.isDirectory := by
  induction segments generalizing p with
  | nil => simp at hlast
  | cons t segments ih =>
    obtain ⟨ht, hrest⟩ := not_or.mp (mt List.mem_cons.mpr hup)
    by_cases hnil : segments = []
    · subst hnil
      obtain rfl : t = s := by simpa using hlast
      have hdir := isDirectory_of_follow_cons h
      rw [follow_skipped hskip hdir, follow] at h
      cases h
      exact hdir
    · -- The last segment stays the last while the look-up goes on.
      rw [List.getLast?_cons_of_ne_nil hnil] at hlast
      by_cases hskipped : t = "" ∨ t = "."
      · rw [follow_skipped hskipped (isDirectory_of_follow_cons h)] at h
        exact ih hp hrest h hlast
      · rw [follow_name hskipped (Ne.symm ht) hp] at h
        obtain ⟨child, hlookup, hfollow⟩ := Option.bind_eq_some_iff.mp h
        exact ih (p := p.child child) (hp.child_of_mem (Node.mem_of_lookup hlookup))
          hrest hfollow hlast

namespace FileTree

variable {tree : FileTree}

def address (t : FileTree) (p : Path) : List String := (t.workingDirectory.join p).names

theorem text_ne_of_holds {p : Path} (h : tree.holds p) : p.text ≠ "" := by
  intro hempty
  rw [holds, node?, locate, if_pos hempty] at h
  exact absurd h Bool.false_ne_true

theorem text_ne_of_node? {p : Path} {n : Node} (h : tree.node? p = some n) : p.text ≠ "" :=
  text_ne_of_holds (by rw [holds, h]; rfl)

theorem holds_of_isDirectory {p : Path} (h : tree.isDirectory p) : tree.holds p := by
  obtain ⟨links, place, hlocate⟩ := exists_locate_of_isDirectory h
  rw [holds, node?, hlocate]
  rfl

section Lookup

variable (plain : tree.root.Plain) (hcwd : tree.workingDirectory.IsDirect) {p q : Path}

theorem address_of_isAbsolute (hp : p.isAbsolute) : tree.address p = p.names := by
  rw [address, Path.join_of_isAbsolute hp]

include hcwd

theorem isDirect_join (hp : p.IsForward) : (tree.workingDirectory.join p).IsDirect :=
  hcwd.join hp

theorem address_of_relative (hp : p.isAbsolute = false) :
    tree.address p = tree.workingDirectory.names ++ p.names := hcwd.names_join hp

theorem address_eq_append (habs : q.isAbsolute = p.isAbsolute) {names : List String}
    (hnames : q.names = p.names ++ names) : tree.address q = tree.address p ++ names := by
  cases hp : p.isAbsolute with
  | true => rw [address_of_isAbsolute (habs.trans hp), address_of_isAbsolute hp, hnames]
  | false =>
    rw [address_of_relative hcwd (habs.trans hp), address_of_relative hcwd hp, hnames,
      List.append_assoc]

theorem locate_join (hp : p.text ≠ "") :
    tree.locate (tree.workingDirectory.join p) = tree.locate p := by
  have habs : (tree.workingDirectory.join p).isAbsolute := Path.isAbsolute_join hcwd.absolute
  rw [locate, locate, if_neg hp, if_neg (Path.text_ne_of_isAbsolute habs),
    Path.join_of_isAbsolute habs]

theorem node?_join (hp : p.text ≠ "") :
    tree.node? (tree.workingDirectory.join p) = tree.node? p := by
  rw [node?, node?, locate_join hcwd hp]

theorem getLast?_segments_workingDirectory_join (p : Path) :
    (tree.workingDirectory.join p).segments.getLast? = p.segments.getLast? := by
  cases hp : p.isAbsolute with
  | true => rw [Path.join_of_isAbsolute hp]
  | false => rw [Path.getLast?_segments_join hp (Path.text_ne_of_isAbsolute hcwd.absolute)]

include plain

theorem find?_address (hp : p.IsForward) {n : Node} (h : tree.node? p = some n) :
    tree.root.find? (tree.address p) = some n := by
  rw [← node?_join hcwd (text_ne_of_node? h)] at h
  exact find?_of_node? plain (isDirect_join hcwd hp) h

theorem node?_of_find?_address (hp : p.IsForward) {n : Node} {name : String}
    (h : tree.root.find? (tree.address p) = some n) (hlast : p.segments.getLast? = some name)
    (hname : Path.IsName name) : tree.node? p = some n := by
  have htext : p.text ≠ "" := by
    intro hempty
    obtain rfl : p = ⟨""⟩ := congrArg Path.mk hempty
    obtain rfl : "" = name := Option.some.inj hlast
    exact hname.not_empty rfl
  rw [← node?_join hcwd htext]
  refine node?_of_find? plain (isDirect_join hcwd hp) h (.inr ⟨name, ?_, hname⟩)
  rw [getLast?_segments_workingDirectory_join hcwd, hlast]

theorem isDirectory_iff_address (hp : p.IsForward) (htext : p.text ≠ "") :
    tree.isDirectory p ↔
      ∃ entries, tree.root.find? (tree.address p) = some (.directory entries) := by
  constructor
  · intro h
    obtain ⟨links, ⟨node, above⟩, hlocate⟩ := exists_locate_of_isDirectory h
    have hnode : tree.node? p = some node := by rw [node?, hlocate]; rfl
    rw [isDirectory, hnode] at h
    cases node with
    | directory entries => exact ⟨entries, find?_address plain hcwd hp hnode⟩
    | file _ | link _ => exact absurd h Bool.false_ne_true
  · rintro ⟨entries, h⟩
    have hjoined := isDirectory_of_find? plain (isDirect_join hcwd hp) h
    rwa [isDirectory, node?_join hcwd htext] at hjoined

/-- No path to a file consists of slashes and dots alone. -/
theorem names_ne_nil_of_file (hp : p.IsForward) (h : tree.isFile p) : p.names ≠ [] := by
  obtain ⟨content, hnode⟩ := isFile_iff.mp h
  intro hnil
  obtain ⟨s, hlast⟩ : ∃ s, p.segments.getLast? = some s :=
    ⟨_, List.getLast?_eq_some_getLast p.segments_ne_nil⟩
  -- The path ends with a slash or a dot, and the look-up takes neither after a file.
  have hskip : s = "" ∨ s = "." := by
    refine Decidable.byContradiction fun hkept => ?_
    have hmem : s ∈ p.names :=
      List.mem_filter.mpr ⟨List.mem_of_getLast? hlast, decide_eq_true (not_or.mp hkept)⟩
    rw [hnil] at hmem
    exact absurd hmem List.not_mem_nil
  obtain ⟨⟨links, place⟩, hlocate, hplace⟩ := Option.map_eq_some_iff.mp hnode
  rw [← locate_join hcwd (text_ne_of_node? hnode),
    locate_of_isDirect (isDirect_join hcwd hp)] at hlocate
  rw [← getLast?_segments_workingDirectory_join hcwd] at hlast
  have hdir : place.node.isDirectory :=
    Place.isDirectory_of_follow_last (p := ⟨tree.root, []⟩) plain (isDirect_join hcwd hp).no_parent
      hlocate hlast hskip
  rw [show place.node = .file content from hplace] at hdir
  exact absurd hdir Bool.false_ne_true

end Lookup

section Walk

variable {p q dir start : Path} {names : List String}

def walkStep? (p : Path) (s : String) : Option Path :=
  if p.text = "." && s = "" then none else some (entryPath p s)

theorem walkRoot?_of_relative (hdir : dir.isAbsolute = false) :
    walkRoot? dir = dir.segments.foldlM walkStep? ⟨"."⟩ := by
  rw [walkRoot?, hdir]
  rfl

theorem IsStart.extends_foldlM (hp : IsStart p) {segments : List String}
    (hslash : ∀ s ∈ segments, '/' ∉ s.toList) (hup : ".." ∉ segments)
    (h : segments.foldlM walkStep? p = some start) : Extends p start (Path.namesIn segments) := by
  induction segments generalizing p with
  | nil =>
    cases h
    exact ⟨hp, rfl, (List.append_nil _).symm⟩
  | cons s segments ih =>
    obtain ⟨hs, hrest⟩ := not_or.mp (mt List.mem_cons.mpr hup)
    rw [List.foldlM_cons] at h
    obtain ⟨q, hq, hfold⟩ := Option.bind_eq_some_iff.mp h
    unfold walkStep? at hq
    split_ifs at hq with hcond
    cases hq
    obtain ⟨hentry, -⟩ :=
      hp.entryPath (hslash s List.mem_cons_self) (Ne.symm hs) (by simpa using hcond)
    have hfold' := ih hentry.start (fun t ht => hslash t (List.mem_cons_of_mem _ ht)) hrest hfold
    rw [← List.singleton_append, Path.namesIn_append]
    exact hentry.trans hfold'

/-- The walk may spell the directory another way, but begins there. -/
theorem extends_walkRoot? (hdir : dir.IsForward) (h : walkRoot? dir = some start) :
    Extends dir start [] := by
  cases habs : dir.isAbsolute with
  | true =>
    obtain ⟨start', hstart', hdirect, hnames⟩ := exists_walkRoot? ⟨habs, hdir⟩
    obtain rfl : start' = start := Option.some.inj (hstart'.symm.trans h)
    exact ⟨.of_isDirect hdirect, hdirect.absolute.trans habs.symm, by rw [hnames, List.append_nil]⟩
  | false =>
    rw [walkRoot?_of_relative habs] at h
    have hdot : IsStart ⟨"."⟩ := ⟨by decide, by decide, by decide⟩
    have hrelative : Path.isAbsolute ⟨"."⟩ = false := by decide
    have hnone : Path.names ⟨"."⟩ = [] := by decide
    obtain ⟨hstart, habs', hnames⟩ :=
      hdot.extends_foldlM (fun s => Path.no_slash_of_mem_segments) hdir h
    rw [hnone, List.nil_append] at hnames
    exact ⟨hstart, by rw [habs', hrelative, habs], by rw [hnames, List.append_nil]; rfl⟩

theorem exists_foldlM_walkStep? (hempty : p.text ≠ "") (hdot : p.text ≠ ".")
    {segments : List String} (hslash : ∀ s ∈ segments, '/' ∉ s.toList) :
    ∃ start, segments.foldlM walkStep? p = some start := by
  induction segments generalizing p with
  | nil => exact ⟨p, rfl⟩
  | cons s segments ih =>
    have hs := hslash s List.mem_cons_self
    have hrelative : Path.isAbsolute ⟨s⟩ = false := Path.isAbsolute_of_no_slash hs
    -- A step fails at a lone dot only, and what has a slash in it never becomes one again.
    have hjoined : (p.join ⟨s⟩).text ≠ "." := by
      intro h
      have hslashed := Path.slash_mem_join hrelative hempty
      rw [h] at hslashed
      exact absurd hslashed (by decide)
    have hstep : walkStep? p s = some (p.join ⟨s⟩) := by simp [walkStep?, FileTree.entryPath, hdot]
    rw [List.foldlM_cons, hstep]
    exact ih (Path.text_join_ne hrelative hempty) hjoined fun t ht =>
      hslash t (List.mem_cons_of_mem _ ht)

/-- A walk can begin at a relative path without dots, and a dot in front makes no difference to
it. -/
theorem exists_walkRoot?_of_relative (hdir : dir.isAbsolute = false) (hempty : dir.text ≠ "")
    (hdots : "." ∉ dir.segments) :
    ∃ start, walkRoot? dir = some start ∧ walkRoot? dir.dotted = some start := by
  obtain ⟨s, rest, hsegments, hs⟩ := Path.exists_segments_eq_cons hdir hempty
  have hslash := fun t => Path.no_slash_of_mem_segments (p := dir) (s := t)
  rw [hsegments] at hdots hslash
  obtain ⟨hdot, -⟩ := not_or.mp (mt List.mem_cons.mpr hdots)
  obtain ⟨start, hstart⟩ := exists_foldlM_walkStep? (p := ⟨s⟩) hs (Ne.symm hdot)
    fun t ht => hslash t (List.mem_cons_of_mem _ ht)
  have hfirst : walkStep? ⟨"."⟩ s = some ⟨s⟩ := by simp [walkStep?, FileTree.entryPath, hs]
  have hdotted : walkStep? ⟨"."⟩ "." = some ⟨"."⟩ := rfl
  refine ⟨start, ?_, ?_⟩
  · rw [walkRoot?_of_relative hdir, hsegments, List.foldlM_cons, hfirst]
    exact hstart
  · rw [walkRoot?_of_relative dir.isAbsolute_dotted, dir.segments_dotted, hsegments,
      List.foldlM_cons, hdotted, Option.bind_eq_bind, Option.bind_some, List.foldlM_cons, hfirst]
    exact hstart

variable (plain : tree.root.Plain) (hcwd : tree.workingDirectory.IsDirect)
include plain hcwd

/-- The walk finds what has an address below that of the directory. -/
theorem mem_walk (hdir : dir.IsForward) (hisDir : tree.isDirectory dir)
    (hstart : walkRoot? dir = some start) :
    q ∈ tree.walk dir ↔ ∃ names, names ≠ [] ∧
      (tree.root.find? (tree.address dir ++ names)).isSome ∧ q = pathBelow start names := by
  obtain ⟨links, place, hlocate⟩ := exists_locate_of_isDirectory hisDir
  have hnode : tree.node? dir = some place.node := by rw [node?, hlocate]; rfl
  have hplace := find?_address plain hcwd hdir hnode
  rw [walk, hstart, hlocate, mem_below (plain.of_find? hplace)]
  simp only [Node.find?_append, hplace, Option.bind_some]

theorem extends_of_mem_walk (hdir : dir.IsForward) (hisDir : tree.isDirectory dir)
    (hq : q ∈ tree.walk dir) :
    ∃ names, names ≠ [] ∧ Extends dir q names ∧
      (tree.root.find? (tree.address dir ++ names)).isSome := by
  cases hstart : walkRoot? dir with
  | none =>
    rw [walk, hstart] at hq
    exact absurd hq List.not_mem_nil
  | some start =>
    obtain ⟨names, hne, hsome, rfl⟩ := (mem_walk plain hcwd hdir hisDir hstart).mp hq
    obtain ⟨n, hfind⟩ := Option.isSome_iff_exists.mp hsome
    have hnames : ∀ s ∈ names, Path.IsName s :=
      fun s hs => plain.isName_of_find? hfind s (List.mem_append_right _ hs)
    have hbegin := extends_walkRoot? hdir hstart
    exact ⟨names, hne, hbegin.trans (hbegin.start.extends_pathBelow hnames), hsome⟩

/-- Every address below that of the directory is found, if the walk can begin at all. -/
theorem exists_mem_walk_address (hdir : dir.IsForward) (hisDir : tree.isDirectory dir)
    (hstart : walkRoot? dir = some start) {n : Node} (hne : names ≠ [])
    (h : tree.root.find? (tree.address dir ++ names) = some n) :
    ∃ q ∈ tree.walk dir, tree.address q = tree.address dir ++ names ∧ tree.node? q = some n := by
  have hnames : ∀ s ∈ names, Path.IsName s :=
    fun s hs => plain.isName_of_find? h s (List.mem_append_right _ hs)
  have hbegin := extends_walkRoot? hdir hstart
  have hextends := hbegin.trans (hbegin.start.extends_pathBelow hnames)
  obtain ⟨name, hlast, hname⟩ := hbegin.start.getLast?_pathBelow hnames hne
  have haddress : tree.address (pathBelow start names) = tree.address dir ++ names :=
    address_eq_append hcwd hextends.isAbsolute hextends.names
  refine ⟨pathBelow start names, ?_, haddress, ?_⟩
  · exact (mem_walk plain hcwd hdir hisDir hstart).mpr ⟨names, hne, by rw [h]; rfl, rfl⟩
  · rw [← haddress] at h
    exact node?_of_find?_address plain hcwd hextends.start.forward h hlast hname

end Walk

end FileTree

end MigrationAudit
