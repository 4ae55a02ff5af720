import MigrationAudit.Shape

namespace MigrationAudit

section Ascending

variable {s t : String} {texts : List String}

theorem mem_insertText : t ∈ insertText s texts ↔ t = s ∨ t ∈ texts := by
  induction texts with
  | nil => simp [insertText]
  | cons u texts ih =>
    unfold insertText
    split
    · simp
    · split
      · next heq => simp [heq]
      · simp only [List.mem_cons, ih]
        exact or_left_comm

theorem pairwise_insertText (h : texts.Pairwise (· < ·)) :
    (insertText s texts).Pairwise (· < ·) := by
  induction texts with
  | nil => exact List.pairwise_singleton _ s
  | cons u texts ih =>
    obtain ⟨hall, hrest⟩ := List.pairwise_cons.mp h
    unfold insertText
    split
    · next hlt =>
      refine List.pairwise_cons.mpr ⟨fun t ht => ?_, h⟩
      rcases List.mem_cons.mp ht with rfl | ht
      · exact hlt
      · exact Std.lt_trans hlt (hall t ht)
    · next hnlt =>
      split
      · exact h
      · next hne =>
        have hus : u < s := Std.lt_of_le_of_ne (Std.not_lt.mp hnlt) (Ne.symm hne)
        refine List.pairwise_cons.mpr ⟨fun t ht => ?_, ih hrest⟩
        rcases mem_insertText.mp ht with rfl | ht
        · exact hus
        · exact hall t ht

theorem mem_foldr_insertText {more : List String} :
    t ∈ more.foldr insertText texts ↔ t ∈ more ∨ t ∈ texts := by
  induction more with
  | nil => simp
  | cons s more ih => rw [List.foldr_cons, mem_insertText, ih, List.mem_cons, or_assoc]

theorem pairwise_foldr_insertText {more : List String} (h : texts.Pairwise (· < ·)) :
    (more.foldr insertText texts).Pairwise (· < ·) := by
  induction more with
  | nil => exact h
  | cons s more ih => exact pairwise_insertText ih

/-- Lists that ascend by one key are told apart by what is in them. -/
theorem eq_of_ascending {α : Type} {key : α → String} {a b : List α}
    (ha : a.Pairwise fun x y => key x < key y) (hb : b.Pairwise fun x y => key x < key y)
    (h : ∀ x, x ∈ a ↔ x ∈ b) : a = b := by
  have hnodup {l : List α} (hl : l.Pairwise fun x y => key x < key y) : l.Nodup :=
    hl.imp fun hlt heq => Std.ne_of_lt hlt (congrArg key heq)
  have hperm : a.Perm b := (List.perm_ext_iff_of_nodup (hnodup ha) (hnodup hb)).mpr h
  exact hperm.eq_of_pairwise (fun x y _ _ hxy hyx =>
    absurd (Std.lt_trans hxy hyx) Std.lt_irrefl) ha hb

end Ascending

namespace Shape

variable {files : List InputFile}

theorem mem_folders {folder : String} :
    folder ∈ (ofFiles files).folders ↔ ∃ f ∈ files, f.folder? = some folder := by
  rw [← List.mem_filterMap, ofFiles, mem_foldr_insertText, or_iff_left List.not_mem_nil]

theorem ascending_folders : (ofFiles files).folders.Pairwise (· < ·) :=
  pairwise_foldr_insertText .nil

end Shape

end MigrationAudit
