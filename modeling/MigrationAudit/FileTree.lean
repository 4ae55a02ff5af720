import MigrationAudit.Path
import MigrationAudit.Failure

namespace MigrationAudit

/-- What a directory can hold. A file without content cannot be read. -/
inductive Node where
  | file (content : Option ByteArray)
  | directory (entries : List (String × Node))
  | link (target : Path)

namespace Node

def isFile : Node → Bool
  | file _ => true
  | _ => false

def isDirectory : Node → Bool
  | directory _ => true
  | _ => false

def entries : Node → List (String × Node)
  | directory entries => entries
  | _ => []

/-- The node with `new` at the given names below it; what is no directory on the way becomes one. An
empty directory does not replace another one. -/
def insert (old new : Node) : List String → Node
  | [] => match old, new with
    | directory _, directory [] => old
    | _, _ => new
  | name :: names =>
    let child := ((old.entries.lookup name).getD (directory [])).insert new names
    if (old.entries.lookup name).isSome then
      directory (old.entries.map fun (n, node) => if n = name then (n, child) else (n, node))
    else directory (old.entries ++ [(name, child)])

theorem sizeOf_lt_of_mem_entries {n child : Node} {name : String}
    (h : (name, child) ∈ n.entries) : sizeOf child < sizeOf n := by
  cases n with
  | file _ | link _ => simp [entries] at h
  | directory entries =>
    have := List.sizeOf_lt_of_mem (show (name, child) ∈ entries from h)
    simp only [Prod.mk.sizeOf_spec, directory.sizeOf_spec] at *
    omega

end Node

/-- A node and the directories above it, nearest first. -/
structure Place where
  node : Node
  above : List Node

namespace Place

def up (p : Place) : Place :=
  match p.above with
  | [] => p
  | node :: above => ⟨node, above⟩

def child (p : Place) (node : Node) : Place := ⟨node, p.node :: p.above⟩

/-- Where the target of a link in the directory `p` is looked up. -/
def origin (root : Node) (p : Place) (target : Path) : Place :=
  if target.isAbsolute then ⟨root, []⟩ else p

/-- Where the names lead from a place; at most `links` links are followed, and the number left is
part of the answer. -/
def follow (root : Node) (links : Nat) (p : Place) (names : List String) : Option (Nat × Place) :=
  match names with
  | [] => some (links, p)
  | name :: rest =>
    if !p.node.isDirectory then none
    else if name = "" || name = "." then follow root links p rest
    else if name = ".." then follow root links p.up rest
    else match p.node.entries.lookup name with
      | none => none
      | some (.link target) =>
        match links with
        | 0 => none
        | links + 1 =>
          follow root links (origin root p target) (target.segments ++ rest)
      | some node => follow root links (p.child node) rest
termination_by (links, names.length)

theorem follow_links_le {root : Node} {links left : Nat} {p q : Place} {names : List String}
    (h : follow root links p names = some (left, q)) : left ≤ links := by
  fun_induction follow root links p names <;> grind

end Place

/-- A file system as one process sees it. -/
structure FileTree where
  root : Node
  workingDirectory : Path

namespace FileTree

/-- How many links one look-up may follow. -/
def maxLinks : Nat := 40

def locate (t : FileTree) (p : Path) : Option (Nat × Place) :=
  if p.text = "" then none
  else Place.follow t.root maxLinks ⟨t.root, []⟩ (t.workingDirectory.join p).segments

def node? (t : FileTree) (p : Path) : Option Node := (t.locate p).map fun (_, place) => place.node

def holds (t : FileTree) (p : Path) : Bool := (t.node? p).isSome
def isFile (t : FileTree) (p : Path) : Bool := (t.node? p).any Node.isFile
def isDirectory (t : FileTree) (p : Path) : Bool := (t.node? p).any Node.isDirectory

def read (t : FileTree) (p : Path) : Except ReadError ByteArray :=
  match t.node? p with
  | some (.file (some bytes)) => .ok bytes
  | some (.file none) => .error .inputOutput
  | some _ => .error .isDirectory
  | none => .error .missing

def readText (t : FileTree) (p : Path) : Except ReadError String := do
  match String.fromUTF8? (← t.read p) with
  | some text => return text
  | none => .error .notText

/-- The name below a directory; the working directory itself is not spelled out. -/
def entryPath (directory : Path) (name : String) : Path :=
  if directory.text = "." then ⟨name⟩ else directory.join ⟨name⟩

/-- Every path below a place at any depth, through links too as long as `links` of them are left. -/
def below (root : Node) (links : Nat) (place : Place) (path : Path) : List Path :=
  place.node.entries.attach.flatMap fun ⟨(name, node), _⟩ =>
    let path := entryPath path name
    path :: match node, links with
      | .link _, 0 => []
      | .link target, links + 1 =>
        match _ : Place.follow root links (place.origin root target) target.segments with
        | some (left, place) => below root left place path
        | none => []
      | node, links => below root links (place.child node) path
termination_by (links, sizeOf place.node)
decreasing_by
  · exact Prod.Lex.left _ _ (Nat.lt_succ_of_le (Place.follow_links_le ‹_›))
  · exact Prod.Lex.right _ (Node.sizeOf_lt_of_mem_entries ‹_›)

/-- How the walk below a directory spells it: a dot in front is dropped, and nothing is found where
an empty segment follows such a dot. -/
def walkRoot? (directory : Path) : Option Path :=
  if directory.isAbsolute then
    some (directory.segments.tail.foldl (fun p s => p.join ⟨s⟩) ⟨"/"⟩)
  else
    directory.segments.foldlM
      (fun p s => if p.text = "." && s = "" then none else some (entryPath p s)) ⟨"."⟩

/-- Every path below a directory at any depth. -/
def walk (t : FileTree) (directory : Path) : List Path :=
  match walkRoot? directory, t.locate directory with
  | some path, some (links, place) => below t.root links place path
  | _, _ => []

end FileTree

end MigrationAudit
