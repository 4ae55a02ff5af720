import MigrationAudit.Catalog
import MigrationAudit.Proofs.LineCounts
import MigrationAudit.Proofs.RuleIsolation

namespace MigrationAudit.Catalog

def storagePermission : Stretch where
  opening := "<uses-permission"
  closing := "READ_EXTERNAL_STORAGE"
  single := "WRITE_EXTERNAL_STORAGE"
  on_line := by decide +kernel
  closing_outside := by decide +kernel
  opening_outside := by decide +kernel
  single_outside := by decide +kernel
  differ := by decide +kernel

def backgroundStart : Stretch where
  opening := "startService"
  closing := "BACKGROUND"
  single := "startActivity"
  on_line := by decide +kernel
  closing_outside := by decide +kernel
  opening_outside := by decide +kernel
  single_outside := by decide +kernel
  differ := by decide +kernel

def lineRules : List (Rule × Stretch) :=
  [(permissionChanges, storagePermission), (backgroundActivity, backgroundStart)]

theorem isPattern_lineRules : ∀ row ∈ lineRules, row.2.IsPattern row.1.regex.pattern := by
  decide +kernel

theorem mem_rules_of_lineRules : ∀ row ∈ lineRules, row.1 ∈ rules := by simp [lineRules, rules]

theorem isFixed_lineRules : ∀ row ∈ lineRules, ∃ message, row.1.advice = .fixed message := by
  refine List.forall_mem_cons.mpr ⟨⟨_, rfl⟩, List.forall_mem_cons.mpr ⟨⟨_, rfl⟩, ?_⟩⟩
  exact fun row hrow => absurd hrow List.not_mem_nil

/-- A rule that looks for a stretch finds, line by line, as much as there is to count, and raises
one issue for it all. No match goes beyond its line, and no line has two stretches. -/
theorem line_rules_counted {r : Rule} {w : Stretch} (h : (r, w) ∈ lineRules) (file text : String) :
    (r.findAll text).length = w.total text.toList ∧
      (0 < w.total text.toList → ∃ i,
        (Issue.ofText rules file text).value.filter (fun i => i.id = r.id) = [i] ∧
          i.file = file ∧ i.occurrences = w.total text.toList) ∧
      (w.total text.toList = 0 →
        (Issue.ofText rules file text).value.filter (fun i => i.id = r.id) = []) ∧
      (∀ m ∈ r.findAll text, '\n' ∉ m.whole.slice text.toList) ∧
      (r.findAll text).Pairwise fun m m' =>
        w.opening.toList <+: m.whole.slice text.toList →
          w.opening.toList <+: m'.whole.slice text.toList →
          '\n' ∈ Span.slice text.toList ⟨m.whole.stop, m'.whole.start⟩ := by
  have hpattern := isPattern_lineRules _ h
  have hlength : (r.findAll text).length = w.total text.toList :=
    Stretch.length_findAll hpattern text.toList
  have hscan : r.regex.pattern.IsScan text.toList (r.findAll text) :=
    Pattern.isScan_findAll r.regex.nodup_forks text.toList
  rw [Catalog.value_ofText_filter_id (mem_rules_of_lineRules _ h), ← hlength, List.length_pos_iff,
    List.length_eq_zero_iff]
  refine ⟨rfl, fun hfound => ?_, fun hnone => ?_, ?_, ?_⟩
  · obtain ⟨message, hadvice⟩ := isFixed_lineRules _ h
    rw [(Rule.Verdict.fixed message hfound hadvice).issue?_eq file]
    exact ⟨_, rfl, rfl, rfl⟩
  · rw [(Rule.Verdict.unmatched hnone).issue?_eq file]
    rfl
  · exact fun m hm => Stretch.feed_not_mem_slice hpattern (hscan.prefers m hm)
  · exact hscan.ordered.imp_of_mem fun hm hm' hle =>
      Stretch.feed_between hpattern (hscan.prefers _ hm) (hscan.prefers _ hm') hle

/-- Of the words in the first line only the one behind the stretch is found by itself. -/
theorem line_rules_counted_permissions :
    let text :=
      "<uses-permission WRITE_EXTERNAL_STORAGE READ_EXTERNAL_STORAGE WRITE_EXTERNAL_STORAGE" ++
      "\nWRITE_EXTERNAL_STORAGE"
    (permissionChanges, storagePermission) ∈ lineRules ∧ 0 < storagePermission.total text.toList ∧
      ∃ i,
        (Issue.ofText rules "a.xml" text).value.filter (fun i => i.id = permissionChanges.id) =
          [i] ∧ i.file = "a.xml" ∧ i.occurrences = 3 := by
  intro text
  have hrow : (permissionChanges, storagePermission) ∈ lineRules := by simp [lineRules]
  have htotal : storagePermission.total text.toList = 3 := by decide +kernel
  obtain ⟨-, hraised, -⟩ := line_rules_counted hrow "a.xml" text
  rw [htotal] at hraised ⊢
  exact ⟨hrow, Nat.succ_pos 2, hraised (Nat.succ_pos 2)⟩

end MigrationAudit.Catalog
