import MigrationAudit.Discovery
import MigrationAudit.Proofs.Walk

namespace MigrationAudit

namespace Discovery

def filesUnder (tree : FileTree) (target : Path) : List Path :=
  if tree.isFile target then [target] else (tree.walk target).filter tree.isFile

def isMissing (tree : FileTree) (target : Path) : Bool :=
  !(tree.isFile target || tree.isDirectory target)

theorem filesOf_eq (tree : FileTree) (target : Path) :
    filesOf tree target =
      if isMissing tree target then .error (.notFound target.text)
        else .ok (filesUnder tree target) := by
  unfold filesOf filesUnder isMissing
  cases tree.isFile target <;> cases tree.isDirectory target <;> rfl

/-- The targets are looked at in turn until one is missing. -/
theorem mapM_filesOf (tree : FileTree) (targets : List Path) :
    targets.mapM (filesOf tree) =
      match targets.find? (isMissing tree) with
      | some target => .error (.notFound target.text)
      | none => .ok (targets.map (filesUnder tree)) := by
  induction targets with
  | nil => rfl
  | cons target targets ih =>
    rw [List.mapM_cons, filesOf_eq, ih]
    cases hmissing : isMissing tree target with
    | true =>
      rw [List.find?_cons_of_pos hmissing]
      rfl
    | false =>
      rw [List.find?_cons_of_neg (by simp [hmissing])]
      cases targets.find? (isMissing tree) with
      | some _ => rfl
      | none => rfl

def Reaches (tree : FileTree) (names : List String) (target : Path) : Prop :=
  tree.isFile target ∧ names = target.names ∨
    tree.isDirectory target ∧ ∃ below, below ≠ [] ∧ names = target.names ++ below

section Files

variable {tree : FileTree} {target p : Path}

theorem reaches_of_mem_filesUnder (plain : tree.root.Plain) (ht : target.IsDirect)
    (hexists : isMissing tree target = false) (hp : p ∈ filesUnder tree target) :
    p.IsDirect ∧ tree.isFile p ∧ Reaches tree p.names target := by
  unfold filesUnder at hp
  split at hp
  · next hfile =>
    obtain rfl := List.mem_singleton.mp hp
    exact ⟨ht, hfile, .inl ⟨hfile, rfl⟩⟩
  · next hfile =>
    have hdir : tree.isDirectory target := by simpa [isMissing, hfile] using hexists
    obtain ⟨hwalk, hpfile⟩ := List.mem_filter.mp hp
    obtain ⟨hdirect, hbelow⟩ := FileTree.names_of_mem_walk plain ht hdir hwalk
    exact ⟨hdirect, hpfile, .inr ⟨hdir, hbelow⟩⟩

theorem exists_mem_filesUnder (plain : tree.root.Plain) (ht : target.IsDirect) {names : List String}
    {content : Option ByteArray} (hfind : tree.root.find? names = some (.file content))
    (hreach : Reaches tree names target) : ∃ p ∈ filesUnder tree target, p.names = names := by
  unfold filesUnder
  rcases hreach with ⟨hfile, rfl⟩ | ⟨hdir, below, hne, rfl⟩
  · rw [if_pos hfile]
    exact ⟨target, List.mem_singleton_self _, rfl⟩
  · have hfile : ¬tree.isFile target := fun hfile => by
      rw [FileTree.isDirectory_eq_false_of_isFile hfile] at hdir
      exact absurd hdir Bool.false_ne_true
    obtain ⟨q, hq, hnode, hnames⟩ := FileTree.exists_mem_walk plain ht hdir hne hfind
    rw [if_neg hfile]
    exact ⟨q, List.mem_filter.mpr ⟨hq, FileTree.isFile_iff.mpr ⟨content, hnode⟩⟩, hnames⟩

end Files

end Discovery

end MigrationAudit
