import MigrationAudit.Proofs.Addresses
import MigrationAudit.Proofs.Ascending
import MigrationAudit.Proofs.Collecting

namespace MigrationAudit.Discovery

def listed (tree : FileTree) (relative : List String → String) (names : List String) :
    InputFile where
  name := names.getLast?.getD ""
  relativePath := some (relative names)
  content := (tree.root.find? names).bind Node.content?

theorem path_listed (tree : FileTree) (relative : List String → String) (names : List String) :
    (listed tree relative names).path = relative names := rfl

def isExcluded (excludes : List Glob) (f : InputFile) : Bool := excludes.any (·.covers f.path)

/-- A path of a file whose text from the root depends on its address alone. -/
structure IsSpelling (tree : FileTree) (root : Path) (relative : List String → String) (p : Path) :
    Prop where
  forward : p.IsForward
  isFile : tree.isFile p
  relative : root.relativeTo p = relative (tree.address p)

def found (tree : FileTree) (root : Path) (paths : List Path) : List (List String) :=
  (arrange root (allFiles tree root paths)).map fun e => tree.address e.2

def listing (tree : FileTree) (relative : List String → String) (addresses : List (List String)) :
    List InputFile :=
  (addresses.map (listed tree relative)).filter InputFile.isAccepted

theorem filterMap_ite {α β : Type} {g : α → β} (p : β → Bool) (as : List α) :
    (as.filterMap fun a => if p (g a) then some (g a) else none) = (as.map g).filter p := by
  induction as with
  | nil => rfl
  | cons a as ih => by_cases h : p (g a) <;> simp [h, ih]

section

variable {tree : FileTree} {root p : Path} {paths : List Path} {relative : List String → String}
  (plain : tree.root.Plain) (hcwd : tree.workingDirectory.IsDirect)

section Spelling

include plain hcwd

theorem getLast?_address (hp : p.IsForward) (hfile : tree.isFile p) :
    (tree.address p).getLast? = p.names.getLast? := by
  cases habs : p.isAbsolute with
  | true => rw [FileTree.address_of_isAbsolute habs]
  | false =>
    have hne : p.names ≠ [] := FileTree.names_ne_nil_of_file plain hcwd hp hfile
    rw [FileTree.address_of_relative hcwd habs, List.getLast?_append,
      List.getLast?_eq_some_getLast hne]
    rfl

theorem IsSpelling.value_load? (h : IsSpelling tree root relative p) (excludes : List Glob) :
    (load? tree excludes (root.relativeTo p) p).value =
      if (listed tree relative (tree.address p)).isAccepted &&
          !isExcluded excludes (listed tree relative (tree.address p)) then
        some (listed tree relative (tree.address p))
      else none := by
  obtain ⟨content, hnode⟩ := FileTree.isFile_iff.mp h.isFile
  have hne : p.names ≠ [] := FileTree.names_ne_nil_of_file plain hcwd h.forward h.isFile
  have hname : p.fileName?.getD (root.relativeTo p) = (tree.address p).getLast?.getD "" := by
    rw [h.forward.fileName?_eq, getLast?_address plain hcwd h.forward h.isFile,
      List.getLast?_eq_some_getLast hne]
    rfl
  have hlisted : listed tree relative (tree.address p) =
      ⟨(tree.address p).getLast?.getD "", some (relative (tree.address p)), content⟩ := by
    rw [listed, FileTree.find?_address plain hcwd h.forward hnode]
    rfl
  rw [Discovery.value_load? excludes _ hnode, hname, h.relative, ← hlisted]
  rfl

end Spelling

section Spelled

variable (hspelled : ∀ p ∈ allFiles tree root paths, IsSpelling tree root relative p)
include hspelled

theorem pairwise_found : (found tree root paths).Pairwise fun a b => relative a < relative b := by
  refine List.pairwise_map.mpr (pairwise_arrange.imp_of_mem fun ha hb hlt => ?_)
  obtain ⟨hmem, hrelative⟩ := mem_of_mem_arrange ha
  obtain ⟨hmem', hrelative'⟩ := mem_of_mem_arrange hb
  rw [← (hspelled _ hmem).relative, ← (hspelled _ hmem').relative, ← hrelative, ← hrelative']
  exact hlt

/-- Every address is found that a file has, if no other file goes by the same path. -/
theorem mem_found (distinct : ∀ p ∈ allFiles tree root paths, ∀ q ∈ allFiles tree root paths,
    relative (tree.address p) = relative (tree.address q) → tree.address p = tree.address q)
    (names : List String) :
    names ∈ found tree root paths ↔ ∃ p ∈ allFiles tree root paths, tree.address p = names := by
  constructor
  · intro h
    obtain ⟨e, he, rfl⟩ := List.mem_map.mp h
    exact ⟨e.2, (mem_of_mem_arrange he).1, rfl⟩
  · rintro ⟨p, hp, rfl⟩
    obtain ⟨q, hq⟩ : ∃ q, (root.relativeTo p, q) ∈ arrange root (allFiles tree root paths) :=
      exists_mem_arrange hp
    obtain ⟨hmem, hrelative⟩ := mem_of_mem_arrange hq
    have hsame : relative (tree.address p) = relative (tree.address q) := by
      rw [← (hspelled p hp).relative, ← (hspelled q hmem).relative]
      exact hrelative
    exact List.mem_map.mpr ⟨_, hq, (distinct p hp q hmem hsame).symm⟩

include plain hcwd

/-- What is collected depends on the addresses that are found and on how they are told. -/
theorem value_collect_of_spelled
    (hexist : ∀ target ∈ targets root paths, isMissing tree target = false) (excludes : List Glob) :
    (collect tree root paths excludes).value =
      .ok ((listing tree relative (found tree root paths)).filter fun f =>
        !isExcluded excludes f) := by
  have hnone : (targets root paths).find? (isMissing tree) = none :=
    List.find?_eq_none.mpr fun target htarget => by simp [hexist target htarget]
  have hloaded : (arrange root (allFiles tree root paths)).filterMap
        (fun e => (load? tree excludes e.1 e.2).value) =
      (arrange root (allFiles tree root paths)).filterMap fun e =>
        if (listed tree relative (tree.address e.2)).isAccepted &&
            !isExcluded excludes (listed tree relative (tree.address e.2)) then
          some (listed tree relative (tree.address e.2))
        else none := by
    refine List.filterMap_congr fun e he => ?_
    obtain ⟨hmem, hrelative⟩ := mem_of_mem_arrange he
    rw [hrelative]
    exact (hspelled e.2 hmem).value_load? plain hcwd excludes
  rw [value_collect, hnone]
  simp only [hloaded]
  rw [filterMap_ite fun f => f.isAccepted && !isExcluded excludes f, listing, found,
    List.filter_filter, List.map_map]
  simp only [Bool.and_comm, Function.comp_def]

end Spelled

end

end MigrationAudit.Discovery
