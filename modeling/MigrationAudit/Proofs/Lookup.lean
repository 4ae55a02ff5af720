import MigrationAudit.FileTree
import MigrationAudit.Proofs.PathNames

namespace MigrationAudit

namespace Node

def find? (n : Node) : List String → Option Node
  | [] => some n
  | name :: names => (n.entries.lookup name).bind (·.find? names)

def content? : Node → Option ByteArray
  | file content => content
  | _ => none

/-- No links, and in each directory distinct names. -/
inductive Plain : Node → Prop
  | file (content : Option ByteArray) : Plain (file content)
  | directory (entries : List (String × Node)) (isName : ∀ e ∈ entries, Path.IsName e.1)
      (distinct : (entries.map Prod.fst).Nodup) (plain : ∀ e ∈ entries, Plain e.2) :
      Plain (directory entries)

theorem find?_append (n : Node) (a b : List String) :
    n.find? (a ++ b) = (n.find? a).bind (·.find? b) := by
  induction a generalizing n with
  | nil => rfl
  | cons name a ih =>
    rw [List.cons_append, find?, find?]
    cases n.entries.lookup name with
    | none => rfl
    | some child => exact ih child

theorem isDirectory_of_lookup {n child : Node} {name : String}
    (h : n.entries.lookup name = some child) : n.isDirectory := by
  cases n with
  | directory _ => rfl
  | file _ | link _ => simp [entries] at h

theorem isDirectory_of_find? {n m : Node} {names : List String} (h : n.find? names = some m)
    (hend : m.isDirectory ∨ names ≠ []) : n.isDirectory := by
  cases names with
  | nil =>
    obtain rfl : n = m := Option.some.inj h
    exact hend.resolve_right (not_not_intro rfl)
  | cons name names =>
    obtain ⟨child, hlookup, -⟩ := Option.bind_eq_some_iff.mp h
    exact isDirectory_of_lookup hlookup

theorem mem_of_lookup {entries : List (String × Node)} {name : String} {child : Node}
    (h : entries.lookup name = some child) : (name, child) ∈ entries := by
  obtain ⟨before, after, rfl, -⟩ := List.lookup_eq_some_iff.mp h
  exact List.mem_append_right _ List.mem_cons_self

namespace Plain

variable {n child : Node} {name : String}

theorem child_of_mem (h : n.Plain) (hmem : (name, child) ∈ n.entries) : child.Plain := by
  cases h with
  | file _ => exact absurd hmem List.not_mem_nil
  | directory entries _ _ plain => exact plain _ hmem

theorem isName_of_mem (h : n.Plain) (hmem : (name, child) ∈ n.entries) : Path.IsName name := by
  cases h with
  | file _ => exact absurd hmem List.not_mem_nil
  | directory entries isName _ _ => exact isName _ hmem

theorem lookup_of_mem (h : n.Plain) (hmem : (name, child) ∈ n.entries) :
    n.entries.lookup name = some child := by
  cases h with
  | file _ => exact absurd hmem List.not_mem_nil
  | directory entries _ distinct _ =>
    obtain ⟨before, after, rfl⟩ := List.append_of_mem (show (name, child) ∈ entries from hmem)
    refine List.lookup_eq_some_iff.mpr ⟨before, after, rfl, ?_⟩
    intro e he
    rw [List.map_append, List.map_cons] at distinct
    have hbefore := (List.nodup_append.mp distinct).2.2 e.1 (List.mem_map_of_mem he)
    exact bne_iff_ne.mpr (hbefore name List.mem_cons_self).symm

theorem of_find? (h : n.Plain) {names : List String} (hfind : n.find? names = some child) :
    child.Plain := by
  induction names generalizing n with
  | nil => exact Option.some.inj hfind ▸ h
  | cons name names ih =>
    obtain ⟨next, hlookup, hrest⟩ := Option.bind_eq_some_iff.mp hfind
    exact ih (h.child_of_mem (mem_of_lookup hlookup)) hrest

theorem isName_of_find? (h : n.Plain) {names : List String} (hfind : n.find? names = some child) :
    ∀ s ∈ names, Path.IsName s := by
  induction names generalizing n with
  | nil => exact fun s hs => absurd hs List.not_mem_nil
  | cons name names ih =>
    obtain ⟨next, hlookup, hrest⟩ := Option.bind_eq_some_iff.mp hfind
    have hmem := mem_of_lookup hlookup
    intro s hs
    rcases List.mem_cons.mp hs with rfl | hs
    · exact h.isName_of_mem hmem
    · exact ih (h.child_of_mem hmem) hrest s hs

end Plain

end Node

namespace Place

variable {root : Node} {links left : Nat} {p q : Place} {segments : List String}

theorem follow_skipped {s : String} (hs : s = "" ∨ s = ".") (hp : p.node.isDirectory) :
    follow root links p (s :: segments) = follow root links p segments := by
  rw [follow]
  simp [hp, hs]

theorem follow_name {s : String} (hs : ¬(s = "" ∨ s = ".")) (hup : s ≠ "..") (hp : p.node.Plain) :
    follow root links p (s :: segments) =
      (p.node.entries.lookup s).bind fun node => follow root links (p.child node) segments := by
  obtain ⟨hempty, hcurrent⟩ := not_or.mp hs
  rw [follow]
  cases hdir : p.node.isDirectory with
  | false =>
    cases hlookup : p.node.entries.lookup s with
    | none => rfl
    | some child =>
      rw [Node.isDirectory_of_lookup hlookup] at hdir
      exact absurd hdir (by decide)
  | true =>
    cases hlookup : p.node.entries.lookup s with
    | none => simp [hempty, hcurrent, hup]
    | some child =>
      have hchild := hp.child_of_mem (Node.mem_of_lookup hlookup)
      cases hchild with
      | file _ => simp [hempty, hcurrent, hup]
      | directory _ _ _ _ => simp [hempty, hcurrent, hup]

theorem isDirectory_of_follow_cons {s : String}
    (h : follow root links p (s :: segments) = some (left, q)) : p.node.isDirectory := by
  cases hdir : p.node.isDirectory with
  | true => rfl
  | false =>
    rw [follow] at h
    simp [hdir] at h

theorem follow_of_not_isDirectory (hp : p.node.isDirectory = false) (hne : segments ≠ []) :
    follow root links p segments = none := by
  obtain ⟨s, rest, rfl⟩ := List.exists_cons_of_ne_nil hne
  rw [follow, hp]
  rfl

/-- A way can be gone in two parts; the second may follow as many links as the first has left. -/
theorem follow_append (a b : List String) :
    follow root links p (a ++ b) =
      (follow root links p a).bind fun (left, q) => follow root left q b := by
  fun_induction follow root links p a with
  | case1 links p => rfl
  | case2 links p name rest hdir => rw [List.cons_append, follow, if_pos hdir, Option.bind_none]
  | case3 links p name rest hdir hskip ih =>
    rw [List.cons_append, follow, if_neg hdir, if_pos hskip, ih]
  | case4 links p rest hdir hskip ih =>
    rw [List.cons_append, follow, if_neg hdir, if_neg hskip, if_pos rfl, ih]
  | case5 links p name rest hdir hskip hup hlookup =>
    rw [List.cons_append, follow, if_neg hdir, if_neg hskip, if_neg hup, hlookup]
    rfl
  | case6 p name rest hdir hskip hup target hlookup =>
    rw [List.cons_append, follow, if_neg hdir, if_neg hskip, if_neg hup, hlookup]
    rfl
  | case7 p name rest hdir hskip hup target hlookup links ih =>
    rw [List.cons_append, follow, if_neg hdir, if_neg hskip, if_neg hup, hlookup, ← ih,
      List.append_assoc]
  | case8 links p name rest hdir hskip hup node hnode hlookup ih =>
    rw [List.cons_append, follow, if_neg hdir, if_neg hskip, if_neg hup, hlookup, ← ih]
    cases node with
    | link target => exact absurd rfl (hnode target)
    | file _ | directory _ => rfl

/-- In front of another segment, those that lead nowhere can be left out. -/
theorem follow_concat (last : String) :
    follow root links p (segments ++ [last]) =
      follow root links p (Path.namesIn segments ++ [last]) := by
  induction segments generalizing links p with
  | nil => rfl
  | cons s segments ih =>
    by_cases hskip : s = "" ∨ s = "."
    · rw [Path.namesIn_cons_of_skipped hskip, List.cons_append]
      -- The segment asks for a directory, but so does whatever comes after it.
      cases hdir : p.node.isDirectory with
      | false =>
        rw [follow_of_not_isDirectory hdir (List.cons_ne_nil _ _),
          follow_of_not_isDirectory hdir (List.concat_ne_nil _ _)]
      | true => rw [follow_skipped hskip hdir, ih]
    · rw [Path.namesIn_cons_of_kept hskip, ← List.singleton_append, List.append_assoc,
        ← List.singleton_append (l := Path.namesIn segments), List.append_assoc, follow_append,
        follow_append [s]]
      simp only [ih]

/-- Without links and steps back, names alone say where a path leads. -/
theorem find?_of_follow (hp : p.node.Plain) (hup : ".." ∉ segments)
    (h : follow root links p segments = some (left, q)) :
    left = links ∧ p.node.find? (Path.namesIn segments) = some q.node := by
  induction segments generalizing p with
  | nil =>
    rw [follow] at h
    cases h
    exact ⟨rfl, rfl⟩
  | cons s segments ih =>
    obtain ⟨hs, hrest⟩ := not_or.mp (mt List.mem_cons.mpr hup)
    by_cases hskip : s = "" ∨ s = "."
    · rw [follow_skipped hskip (isDirectory_of_follow_cons h)] at h
      rw [Path.namesIn_cons_of_skipped hskip]
      exact ih hp hrest h
    · rw [follow_name hskip (Ne.symm hs) hp] at h
      obtain ⟨child, hlookup, hfollow⟩ := Option.bind_eq_some_iff.mp h
      have hchild := hp.child_of_mem (Node.mem_of_lookup hlookup)
      obtain ⟨hleft, hfind⟩ := ih (p := p.child child) hchild hrest hfollow
      refine ⟨hleft, ?_⟩
      rw [Path.namesIn_cons_of_kept hskip, Node.find?, hlookup]
      exact hfind

/-- Where the names lead there is a way, unless something follows the name of a file. -/
theorem follow_of_find? {n : Node} (hp : p.node.Plain) (hup : ".." ∉ segments)
    (h : p.node.find? (Path.namesIn segments) = some n)
    (hend : n.isDirectory ∨ ∃ name, segments.getLast? = some name ∧ Path.IsName name) :
    ∃ above, follow root links p segments = some (links, ⟨n, above⟩) := by
  induction segments generalizing p with
  | nil =>
    obtain rfl : p.node = n := Option.some.inj h
    exact ⟨p.above, by rw [follow]⟩
  | cons s segments ih =>
    obtain ⟨hs, hrest⟩ := not_or.mp (mt List.mem_cons.mpr hup)
    have hend' (hne : segments ≠ []) :
        n.isDirectory ∨ ∃ name, segments.getLast? = some name ∧ Path.IsName name := by
      rwa [List.getLast?_cons_of_ne_nil hne] at hend
    by_cases hskip : s = "" ∨ s = "."
    · rw [Path.namesIn_cons_of_skipped hskip] at h
      -- Even an empty segment is looked up in a directory only.
      have hdir : p.node.isDirectory := by
        rcases hend with hdir | ⟨name, hlast, hname⟩
        · exact Node.isDirectory_of_find? h (.inl hdir)
        · have hmem := Path.mem_namesIn hname (List.mem_of_getLast? hlast)
          rw [Path.namesIn_cons_of_skipped hskip] at hmem
          exact Node.isDirectory_of_find? h (.inr (List.ne_nil_of_mem hmem))
      rw [follow_skipped hskip hdir]
      by_cases hnil : segments = []
      · subst hnil
        obtain rfl : p.node = n := Option.some.inj h
        exact ih hp hrest h (.inl hdir)
      · exact ih hp hrest h (hend' hnil)
    · rw [Path.namesIn_cons_of_kept hskip] at h
      obtain ⟨child, hlookup, hfind⟩ := Option.bind_eq_some_iff.mp h
      have hchild := hp.child_of_mem (Node.mem_of_lookup hlookup)
      rw [follow_name hskip (Ne.symm hs) hp, hlookup, Option.bind_some]
      by_cases hnil : segments = []
      · subst hnil
        obtain rfl : child = n := Option.some.inj hfind
        exact ⟨_, by rw [follow]; rfl⟩
      · exact ih (p := p.child child) hchild hrest hfind (hend' hnil)

end Place

namespace FileTree

variable {tree : FileTree} {p : Path} {n : Node}

theorem isFile_iff : tree.isFile p ↔ ∃ content, tree.node? p = some (.file content) := by
  rw [isFile]
  constructor
  · intro h
    cases hnode : tree.node? p with
    | none => simp [hnode] at h
    | some n =>
      cases n with
      | file content => exact ⟨content, rfl⟩
      | directory _ | link _ => simp [hnode, Node.isFile] at h
  · rintro ⟨content, hnode⟩
    rw [hnode]
    rfl

theorem isDirectory_eq_false_of_isFile (h : tree.isFile p) : tree.isDirectory p = false := by
  obtain ⟨content, hnode⟩ := isFile_iff.mp h
  rw [isDirectory, hnode]
  rfl

theorem exists_locate_of_isDirectory (h : tree.isDirectory p) :
    ∃ links place, tree.locate p = some (links, place) := by
  cases hlocate : tree.locate p with
  | none => simp [isDirectory, node?, hlocate] at h
  | some found => exact ⟨found.1, found.2, rfl⟩

theorem locate_of_isDirect (hp : p.IsDirect) :
    tree.locate p = Place.follow tree.root maxLinks ⟨tree.root, []⟩ p.segments := by
  rw [locate, if_neg (Path.text_ne_of_isAbsolute hp.absolute), Path.join, hp.absolute, Bool.true_or,
    if_pos rfl]

theorem locate_eq_some (plain : tree.root.Plain) (hp : p.IsDirect) {links : Nat} {place : Place}
    (h : tree.locate p = some (links, place)) :
    tree.root.find? p.names = some place.node := by
  rw [locate_of_isDirect hp] at h
  exact (Place.find?_of_follow (p := ⟨tree.root, []⟩) plain hp.no_parent h).2

theorem find?_of_node? (plain : tree.root.Plain) (hp : p.IsDirect) (h : tree.node? p = some n) :
    tree.root.find? p.names = some n := by
  obtain ⟨⟨links, place⟩, hlocate, rfl⟩ := Option.map_eq_some_iff.mp h
  exact locate_eq_some plain hp hlocate

/-- The root of the file system is never taken for a file. -/
theorem names_ne_nil_of_isFile (plain : tree.root.Plain) (hp : p.IsDirect) (h : tree.isFile p) :
    p.names ≠ [] := by
  intro hnil
  obtain ⟨content, hnode⟩ := isFile_iff.mp h
  have hroot := find?_of_node? plain hp hnode
  rw [hnil] at hroot
  obtain ⟨⟨links, place⟩, hlocate, -⟩ := Option.map_eq_some_iff.mp hnode
  rw [locate_of_isDirect hp, Path.segments_of_isAbsolute hp.absolute] at hlocate
  have hdir := Place.isDirectory_of_follow_cons hlocate
  rw [show tree.root = .file content from Option.some.inj hroot] at hdir
  exact absurd hdir Bool.false_ne_true

theorem node?_of_find? (plain : tree.root.Plain) (hp : p.IsDirect)
    (h : tree.root.find? p.names = some n)
    (hend : n.isDirectory ∨ ∃ name, p.segments.getLast? = some name ∧ Path.IsName name) :
    tree.node? p = some n := by
  have hway : ∃ above, Place.follow tree.root maxLinks ⟨tree.root, []⟩ p.segments =
      some (maxLinks, ⟨n, above⟩) := Place.follow_of_find? plain hp.no_parent h hend
  obtain ⟨above, hfollow⟩ := hway
  rw [node?, locate_of_isDirect hp, hfollow]
  rfl

theorem isDirectory_of_find? (plain : tree.root.Plain) (hp : p.IsDirect)
    {entries : List (String × Node)} (h : tree.root.find? p.names = some (.directory entries)) :
    tree.isDirectory p := by
  rw [isDirectory, node?_of_find? plain hp h (.inl rfl)]
  rfl

end FileTree

end MigrationAudit
