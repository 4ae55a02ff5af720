import MigrationAudit.Proofs.Lookup

namespace MigrationAudit

namespace Place

def descend (p : Place) : List String → Option Place
  | [] => some p
  | name :: names => (p.node.entries.lookup name).bind fun node => (p.child node).descend names

theorem descend_append (p : Place) (a b : List String) :
    p.descend (a ++ b) = (p.descend a).bind (·.descend b) := by
  induction a generalizing p with
  | nil => rfl
  | cons name a ih =>
    rw [List.cons_append, descend, descend]
    cases p.node.entries.lookup name with
    | none => rfl
    | some node => exact ih (p.child node)

theorem find?_eq_descend (p : Place) (a : List String) :
    p.node.find? a = (p.descend a).map Place.node := by
  induction a generalizing p with
  | nil => rfl
  | cons name a ih =>
    rw [Node.find?, descend]
    cases p.node.entries.lookup name with
    | none => rfl
    | some node => exact ih (p.child node)

def at? (root : Node) (address : List String) : Option Place := descend ⟨root, []⟩ address

section At

variable {root : Node} {a : List String} {p : Place}

theorem find?_of_at? (h : at? root a = some p) : root.find? a = some p.node := by
  have hfind := find?_eq_descend ⟨root, []⟩ a
  rw [show descend ⟨root, []⟩ a = some p from h] at hfind
  exact hfind

theorem at?_concat (h : at? root a = some p) (name : String) :
    at? root (a ++ [name]) = (p.node.entries.lookup name).map p.child := by
  rw [at?, descend_append, show descend ⟨root, []⟩ a = some p from h, Option.bind_some, descend]
  cases p.node.entries.lookup name <;> rfl

theorem find?_concat (h : at? root a = some p) (name : String) :
    root.find? (a ++ [name]) = p.node.entries.lookup name := by
  rw [Node.find?_append, find?_of_at? h, Option.bind_some, Node.find?]
  cases p.node.entries.lookup name <;> rfl

theorem at?_dropLast (h : at? root a = some p) : at? root a.dropLast = some p.up := by
  rcases List.eq_nil_or_concat a with rfl | ⟨front, name, rfl⟩
  · cases h
    rfl
  · rw [List.concat_eq_append, List.dropLast_concat] at *
    rw [at?, descend_append] at h
    obtain ⟨q, hq, hp⟩ := Option.bind_eq_some_iff.mp h
    obtain ⟨node, -, hnode⟩ := Option.bind_eq_some_iff.mp hp
    cases hnode
    exact hq

end At

end Place

namespace Node

/-- A node by itself: a directory without what it holds. -/
def bare : Node → Node
  | directory _ => directory []
  | n => n

@[simp] theorem isDirectory_bare (n : Node) : n.bare.isDirectory = n.isDirectory := by
  cases n <;> rfl

theorem bare_eq_link_iff {n : Node} {target : Path} : n.bare = link target ↔ n = link target := by
  cases n <;> simp [bare]

/-- Where names lead from an address without links on the way: an address again, and how many links
may still be followed. -/
def route (root : Node) (links : Nat) (address names : List String) : Option (Nat × List String) :=
  match names with
  | [] => some (links, address)
  | name :: rest =>
    if !(root.find? address).any isDirectory then none
    else if name = "" || name = "." then route root links address rest
    else if name = ".." then route root links address.dropLast rest
    else match root.find? (address ++ [name]) with
      | none => none
      | some (.link target) =>
        match links with
        | 0 => none
        | links + 1 =>
          route root links (if target.isAbsolute then [] else address) (target.segments ++ rest)
      | some _ => route root links (address ++ [name]) rest
termination_by (links, names.length)

end Node

theorem Place.follow_eq_route {root : Node} {links : Nat} {a names : List String} {p : Place}
    (h : at? root a = some p) :
    follow root links p names =
      (root.route links a names).bind fun (left, b) => (at? root b).map fun q => (left, q) := by
  fun_induction Node.route root links a names generalizing p with
  | case1 links a => simp [follow, h]
  | case2 links a name rest hdir =>
    rw [find?_of_at? h] at hdir
    rw [follow, if_pos (by simpa using hdir)]
    rfl
  | case3 links a name rest hdir hskip ih =>
    rw [find?_of_at? h] at hdir
    rw [follow, if_neg (by simpa using hdir), if_pos hskip]
    exact ih h
  | case4 links a rest hdir hskip ih =>
    rw [find?_of_at? h] at hdir
    rw [follow, if_neg (by simpa using hdir), if_neg hskip, if_pos rfl]
    exact ih (at?_dropLast h)
  | case5 links a name rest hdir hskip hup hnone =>
    rw [find?_of_at? h] at hdir
    rw [find?_concat h] at hnone
    rw [follow, if_neg (by simpa using hdir), if_neg hskip, if_neg hup, hnone]
    rfl
  | case6 a name rest hdir hskip hup target hlink =>
    rw [find?_of_at? h] at hdir
    rw [find?_concat h] at hlink
    rw [follow, if_neg (by simpa using hdir), if_neg hskip, if_neg hup, hlink]
    rfl
  | case7 a name rest hdir hskip hup target hlink links ih =>
    rw [find?_of_at? h] at hdir
    rw [find?_concat h] at hlink
    rw [follow, if_neg (by simpa using hdir), if_neg hskip, if_neg hup, hlink]
    apply ih
    unfold origin
    split
    · rfl
    · exact h
  | case8 links a name rest hdir hskip hup node hnode hfind ih =>
    rw [find?_of_at? h] at hdir
    have hchild : at? root (a ++ [name]) = some (p.child node) := by
      rw [at?_concat h, ← find?_concat h, hfind]
      rfl
    rw [find?_concat h] at hfind
    rw [follow, if_neg (by simpa using hdir), if_neg hskip, if_neg hup, hfind]
    cases node with
    | link target => exact absurd rfl (hnode target)
    | file _ | directory _ => exact ih hchild

/-- Without links and steps back, a way ends where its names say. -/
theorem Node.address_of_route {root : Node} (plain : root.Plain) {links left : Nat}
    {a b names : List String} (hup : ".." ∉ names) (h : root.route links a names = some (left, b)) :
    b = a ++ Path.namesIn names := by
  fun_induction Node.route root links a names with
  | case1 links a =>
    cases h
    rw [Path.namesIn_nil, List.append_nil]
  | case2 links a name rest hdir => cases h
  | case3 links a name rest hdir hskip ih =>
    rw [Path.namesIn_cons_of_skipped (by simpa using hskip)]
    exact ih (mt (List.mem_cons_of_mem _) hup) h
  | case4 links a rest hdir hskip ih => exact absurd List.mem_cons_self hup
  | case5 links a name rest hdir hskip hup' hnone => cases h
  | case6 a name rest hdir hskip hup' target hlink => cases h
  | case7 a name rest hdir hskip hup' target hlink links ih =>
    have hplain := plain.of_find? hlink
    cases hplain
  | case8 links a name rest hdir hskip hup' node hnode hfind ih =>
    rw [ih (mt (List.mem_cons_of_mem _) hup) h, Path.namesIn_cons_of_kept (by simpa using hskip),
      List.append_assoc, List.singleton_append]

namespace FileTree

def realAddress? (t : FileTree) (p : Path) : Option (List String) :=
  if p.text = "" then none
  else (t.root.route maxLinks [] (t.workingDirectory.join p).segments).map (·.2)

theorem node?_eq_bind (t : FileTree) (p : Path) :
    t.node? p = (t.realAddress? p).bind t.root.find? := by
  have hroot : Place.at? t.root [] = some ⟨t.root, []⟩ := rfl
  unfold node? locate realAddress?
  split
  · rfl
  · rw [Place.follow_eq_route hroot]
    cases t.root.route maxLinks [] (t.workingDirectory.join p).segments with
    | none => rfl
    | some found =>
      have hfind := Place.find?_eq_descend ⟨t.root, []⟩ found.2
      simp only [Option.bind_some, Option.map_some, hfind, Place.at?, Option.map_map]
      rfl

theorem realAddress?_of_isDirect {t : FileTree} {p : Path} (hp : p.IsDirect) :
    t.realAddress? p = (t.root.route maxLinks [] p.segments).map (·.2) := by
  rw [realAddress?, if_neg (Path.text_ne_of_isAbsolute hp.absolute),
    Path.join_of_isAbsolute hp.absolute]

theorem names_of_realAddress? {t : FileTree} (plain : t.root.Plain) {p : Path} (hp : p.IsDirect)
    {a : List String} (h : t.realAddress? p = some a) : a = p.names := by
  rw [realAddress?_of_isDirect hp] at h
  obtain ⟨⟨left, b⟩, hroute, rfl⟩ := Option.map_eq_some_iff.mp h
  rw [Node.address_of_route plain hp.no_parent hroute, List.nil_append, Path.names]

def HasNoMoreThanFile (t : FileTree) (a : List String) : Prop :=
  ∀ n, t.root.find? a = some n → ∃ content, n = .file content

/-- Two file systems differ only in files at some addresses: these may change, come or go. -/
structure SameBesides (changed : List String → Prop) (t t' : FileTree) : Prop where
  workingDirectory : t'.workingDirectory = t.workingDirectory
  elsewhere : ∀ a, ¬changed a → (t'.root.find? a).map Node.bare = (t.root.find? a).map Node.bare
  file : ∀ a, changed a → t.HasNoMoreThanFile a
  file' : ∀ a, changed a → t'.HasNoMoreThanFile a

theorem HasNoMoreThanFile.any_isDirectory {t : FileTree} {a : List String}
    (h : t.HasNoMoreThanFile a) : (t.root.find? a).any Node.isDirectory = false := by
  cases hfind : t.root.find? a with
  | none => rfl
  | some n =>
    obtain ⟨content, rfl⟩ := h n hfind
    rfl

/-- What comes after the name of a file leads nowhere. -/
theorem HasNoMoreThanFile.route_eq_none {t : FileTree} {a : List String} (h : t.HasNoMoreThanFile a)
    (links : Nat) {names : List String} (hne : names ≠ []) : t.root.route links a names = none := by
  obtain ⟨name, rest, rfl⟩ := List.exists_cons_of_ne_nil hne
  rw [Node.route, h.any_isDirectory]
  rfl

/-- The name of a file that may change ends the way. -/
theorem HasNoMoreThanFile.route_concat {t : FileTree} {a : List String} {name : String}
    (h : t.HasNoMoreThanFile (a ++ [name])) (links : Nat) (rest : List String)
    (hskip : ¬(decide (name = "") || decide (name = ".")) = true) (hup : ¬name = "..") :
    t.root.route links a (name :: rest) = none ∨
      t.root.route links a (name :: rest) = some (links, a ++ [name]) := by
  rw [Node.route, if_neg hskip, if_neg hup]
  split
  · exact .inl rfl
  · cases hfind : t.root.find? (a ++ [name]) with
    | none => exact .inl rfl
    | some n =>
      obtain ⟨content, rfl⟩ := h n hfind
      cases rest with
      | nil =>
        right
        dsimp only
        rw [Node.route]
      | cons next rest => exact .inl (h.route_eq_none links (List.cons_ne_nil _ _))

namespace SameBesides

variable {changed : List String → Prop} {t t' : FileTree} (h : SameBesides changed t t')
include h

theorem isDirectory_eq (a : List String) :
    (t'.root.find? a).any Node.isDirectory = (t.root.find? a).any Node.isDirectory := by
  by_cases ha : changed a
  · rw [(h.file a ha).any_isDirectory, (h.file' a ha).any_isDirectory]
  · have hbare (o : Option Node) :
        o.any Node.isDirectory = (o.map Node.bare).any Node.isDirectory := by
      cases o <;> simp
    rw [hbare, h.elsewhere a ha, ← hbare]

theorem link_eq {a : List String} {target : Path} (hlink : t.root.find? a = some (.link target)) :
    t'.root.find? a = some (.link target) := by
  have hkept : ¬changed a := by
    intro hchanged
    obtain ⟨content, hcontent⟩ := h.file a hchanged _ hlink
    cases hcontent
  have hsame := h.elsewhere a hkept
  rw [hlink, Option.map_some] at hsame
  obtain ⟨n, hfind, hbare⟩ := Option.map_eq_some_iff.mp hsame
  rw [hfind, Node.bare_eq_link_iff.mp hbare]

/-- A look-up goes the same way in both file systems, unless it ends at a file that may change. -/
theorem route_eq (links : Nat) (a names : List String) :
    t'.root.route links a names = t.root.route links a names ∨
      ∃ left b, changed b ∧ (t.root.route links a names = some (left, b) ∨
        t'.root.route links a names = some (left, b)) := by
  fun_induction Node.route t.root links a names with
  | case1 links a => exact .inl (by rw [Node.route])
  | case2 links a name rest hdir =>
    rw [← h.isDirectory_eq] at hdir
    exact .inl (by rw [Node.route, if_pos hdir])
  | case3 links a name rest hdir hskip ih =>
    rw [← h.isDirectory_eq] at hdir
    rw [Node.route, if_neg hdir, if_pos hskip]
    exact ih
  | case4 links a rest hdir hskip ih =>
    rw [← h.isDirectory_eq] at hdir
    rw [Node.route, if_neg hdir, if_neg hskip, if_pos rfl]
    exact ih
  | case5 links a name rest hdir hskip hup hnone =>
    -- A file that comes can be found here, but nothing after it.
    by_cases hchanged : changed (a ++ [name])
    · rcases (h.file' _ hchanged).route_concat links rest hskip hup with hroute | hroute
      · exact .inl hroute
      · exact .inr ⟨links, a ++ [name], hchanged, .inr hroute⟩
    · have hnone' := h.elsewhere _ hchanged
      rw [hnone, Option.map_none, Option.map_eq_none_iff] at hnone'
      rw [← h.isDirectory_eq] at hdir
      rw [Node.route, if_neg hdir, if_neg hskip, if_neg hup, hnone']
      exact .inl rfl
  | case6 a name rest hdir hskip hup target hlink =>
    rw [← h.isDirectory_eq] at hdir
    rw [Node.route, if_neg hdir, if_neg hskip, if_neg hup, h.link_eq hlink]
    exact .inl rfl
  | case7 a name rest hdir hskip hup target hlink links ih =>
    rw [← h.isDirectory_eq] at hdir
    rw [Node.route, if_neg hdir, if_neg hskip, if_neg hup, h.link_eq hlink]
    exact ih
  | case8 links a name rest hdir hskip hup node hnode hfind ih =>
    -- A file that may change is no way to anything else, in neither of the file systems.
    by_cases hchanged : changed (a ++ [name])
    · cases rest with
      | nil => exact .inr ⟨links, a ++ [name], hchanged, .inl (by rw [Node.route])⟩
      | cons next rest =>
        rw [(h.file _ hchanged).route_eq_none links (List.cons_ne_nil _ _)]
        rcases (h.file' _ hchanged).route_concat links (next :: rest) hskip hup with
          hroute | hroute
        · exact .inl hroute
        · exact .inr ⟨links, a ++ [name], hchanged, .inr hroute⟩
    · obtain ⟨node', hfind', hbare⟩ : ∃ node', t'.root.find? (a ++ [name]) = some node' ∧
          node'.bare = node.bare := by
        have hsame := h.elsewhere _ hchanged
        rw [hfind, Option.map_some] at hsame
        exact Option.map_eq_some_iff.mp hsame
      have hnode' (target : Path) : node' ≠ .link target := by
        rintro rfl
        exact hnode target (Node.bare_eq_link_iff.mp hbare.symm)
      rw [← h.isDirectory_eq] at hdir
      rw [Node.route, if_neg hdir, if_neg hskip, if_neg hup, hfind']
      cases node' with
      | link target => exact absurd rfl (hnode' target)
      | file _ | directory _ => exact ih

/-- What a path leads to is the same in both file systems, unless it is a file that may change. -/
theorem map_bare_node? {p : Path} (hp : ∀ a, changed a → t.realAddress? p ≠ some a)
    (hp' : ∀ a, changed a → t'.realAddress? p ≠ some a) :
    (t'.node? p).map Node.bare = (t.node? p).map Node.bare := by
  have haddress : t'.realAddress? p = t.realAddress? p := by
    unfold realAddress? at *
    rw [h.workingDirectory] at *
    by_cases htext : p.text = ""
    · rw [if_pos htext, if_pos htext]
    · simp only [if_neg htext] at *
      rcases h.route_eq maxLinks [] (t.workingDirectory.join p).segments with
        hroute | ⟨left, b, hb, hroute⟩
      · rw [hroute]
      · rcases hroute with hroute | hroute
        · exact absurd (by rw [hroute]; rfl) (hp b hb)
        · exact absurd (by rw [hroute]; rfl) (hp' b hb)
  rw [node?_eq_bind, node?_eq_bind, haddress]
  cases ha : t.realAddress? p with
  | none => rfl
  | some a => exact h.elsewhere a fun hchanged => hp a hchanged ha

section Same

variable {p : Path} (hp : ∀ a, changed a → t.realAddress? p ≠ some a)
  (hp' : ∀ a, changed a → t'.realAddress? p ≠ some a)
include hp hp'

theorem holds_eq : t'.holds p = t.holds p := by
  have hsame := h.map_bare_node? hp hp'
  rw [holds, holds, ← Option.isSome_map (f := Node.bare), hsame, Option.isSome_map]

theorem read_eq : t'.read p = t.read p := by
  have hsame := h.map_bare_node? hp hp'
  unfold read
  cases hnode : t.node? p with
  | none =>
    rw [hnode, Option.map_none, Option.map_eq_none_iff] at hsame
    rw [hsame]
  | some n =>
    rw [hnode, Option.map_some] at hsame
    obtain ⟨n', hnode', hbare⟩ := Option.map_eq_some_iff.mp hsame
    rw [hnode']
    cases n <;> cases n' <;> simp_all [Node.bare]

end Same

end SameBesides

end FileTree

end MigrationAudit
