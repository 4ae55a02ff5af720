import MigrationAudit.Discovery

namespace MigrationAudit.Discovery

section Repeats

variable {α : Type} {key : α → String} {as : List α}

theorem dropRepeats_sublist (key : α → String) (as : List α) : (dropRepeats key as).Sublist as := by
  fun_induction dropRepeats key as with
  | case1 a b rest _ ih => exact ih.trans (.cons_cons a (List.sublist_cons_self b rest))
  | case2 a b rest _ ih => exact ih.cons_cons a
  | case3 as => exact List.Sublist.refl as

theorem exists_mem_dropRepeats {a : α} (h : a ∈ as) : ∃ b ∈ dropRepeats key as, key b = key a := by
  fun_induction dropRepeats key as generalizing a with
  | case1 b c rest hkey ih =>
    -- `c` goes, but `b` before it has the same key.
    rcases List.mem_cons.mp h with rfl | h
    · exact ih List.mem_cons_self
    · rcases List.mem_cons.mp h with rfl | h
      · rw [← hkey]
        exact ih List.mem_cons_self
      · exact ih (List.mem_cons_of_mem _ h)
  | case2 b c rest _ ih =>
    rcases List.mem_cons.mp h with rfl | h
    · exact ⟨a, List.mem_cons_self, rfl⟩
    · obtain ⟨d, hd, hkey⟩ := ih h
      exact ⟨d, List.mem_cons_of_mem _ hd, hkey⟩
  | case3 as => exact ⟨a, h, rfl⟩

/-- In a sorted list all repeats stand together. -/
theorem pairwise_dropRepeats (h : as.Pairwise fun a b => key a ≤ key b) :
    (dropRepeats key as).Pairwise fun a b => key a < key b := by
  fun_induction dropRepeats key as with
  | case1 a b rest _ ih => exact ih (h.sublist (.cons_cons a (List.sublist_cons_self b rest)))
  | case2 a b rest hne ih =>
    obtain ⟨hall, hrest⟩ := List.pairwise_cons.mp h
    refine List.pairwise_cons.mpr ⟨fun c hc => ?_, ih hrest⟩
    have hab : key a < key b := Std.lt_of_le_of_ne (hall b List.mem_cons_self) hne
    rcases List.mem_cons.mp ((dropRepeats_sublist key _).mem hc) with rfl | hc
    · exact hab
    · exact Std.lt_of_lt_of_le hab ((List.pairwise_cons.mp hrest).1 c hc)
  | case3 as hshort =>
    match as, hshort with
    | [], _ => exact .nil
    | [a], _ => exact List.pairwise_singleton _ a
    | a :: b :: rest, hshort => exact absurd rfl (hshort a b rest)

end Repeats

variable {root : Path} {files : List Path}

/-- The files by their path from the root, each path once. -/
theorem pairwise_arrange : (arrange root files).Pairwise fun a b => a.1 < b.1 := by
  refine pairwise_dropRepeats ?_
  have htrans (a b c : String × Path) (hab : decide (a.1 ≤ b.1)) (hbc : decide (b.1 ≤ c.1)) :
      decide (a.1 ≤ c.1) :=
    decide_eq_true (Std.le_trans (of_decide_eq_true hab) (of_decide_eq_true hbc))
  have htotal (a b : String × Path) : decide (a.1 ≤ b.1) || decide (b.1 ≤ a.1) := by
    simpa using Std.le_total
  have hsorted := List.pairwise_mergeSort htrans htotal (files.map fun p => (root.relativeTo p, p))
  exact hsorted.imp of_decide_eq_true

theorem mem_of_mem_arrange {e : String × Path} (h : e ∈ arrange root files) :
    e.2 ∈ files ∧ e.1 = root.relativeTo e.2 := by
  have hmem := (dropRepeats_sublist _ _).mem h
  rw [List.mem_mergeSort] at hmem
  obtain ⟨p, hp, rfl⟩ := List.mem_map.mp hmem
  exact ⟨hp, rfl⟩

theorem exists_mem_arrange {p : Path} (h : p ∈ files) :
    ∃ q, (root.relativeTo p, q) ∈ arrange root files := by
  have hmem : (root.relativeTo p, p) ∈
      (files.map fun p => (root.relativeTo p, p)).mergeSort (·.1 ≤ ·.1) := by
    rw [List.mem_mergeSort]
    exact List.mem_map_of_mem h
  have hkept : ∃ e ∈ arrange root files, e.1 = root.relativeTo p := exists_mem_dropRepeats hmem
  obtain ⟨⟨_, q⟩, hq, rfl⟩ := hkept
  exact ⟨q, hq⟩

end MigrationAudit.Discovery
