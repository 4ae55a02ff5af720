import MigrationAudit.FileTree
import MigrationAudit.Glob
import MigrationAudit.Shape

namespace MigrationAudit.Discovery

/-- What to scan: the paths seen from the root, or the root if none are given. -/
def targets (root : Path) (paths : List Path) : List Path :=
  if paths.isEmpty then [root] else paths.map root.join

/-- The files that a target stands for. -/
def filesOf (tree : FileTree) (target : Path) : Except Failure (List Path) :=
  if tree.isFile target then .ok [target]
  else if tree.isDirectory target then .ok ((tree.walk target).filter tree.isFile)
  else .error (.notFound target.text)

/-- Drops each element whose key is that of the one before it. -/
def dropRepeats {α : Type} (key : α → String) : List α → List α
  | a :: b :: rest =>
    if key a = key b then dropRepeats key (a :: rest) else a :: dropRepeats key (b :: rest)
  | as => as
termination_by as => as.length

/-- The files by their path from the root in ascending order; of those with one path, the first. -/
def arrange (root : Path) (files : List Path) : List (String × Path) :=
  dropRepeats (·.1) ((files.map fun p => (root.relativeTo p, p)).mergeSort (·.1 ≤ ·.1))

/-- Reads a file, unless its name or an exclude keeps it out. -/
def load? (tree : FileTree) (excludes : List Glob) (relative : String) (p : Path) :
    Logged (Option InputFile) := do
  let name := p.fileName?.getD relative
  if !InputFile.isAcceptedName name then return none
  if excludes.any (·.covers relative) then
    Logged.tell (.excluded relative)
    return none
  match tree.read p with
  | .ok bytes => return some ⟨name, some relative, some bytes⟩
  | .error e => do
    Logged.tell (.readFailed p.text e)
    return some ⟨name, some relative, none⟩

/-- The files to analyze. The first target that does not exist is a failure. -/
def collect (tree : FileTree) (root : Path) (paths : List Path) (excludes : List Glob) :
    Logged (Except Failure (List InputFile)) :=
  match (targets root paths).mapM (filesOf tree) with
  | .error e => return .error e
  | .ok found => do
    let loaded ← Logged.each (arrange root found.flatten) fun (relative, p) =>
      load? tree excludes relative p
    return .ok (loaded.filterMap fun f => f)

end MigrationAudit.Discovery
