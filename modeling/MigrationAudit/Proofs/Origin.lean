import MigrationAudit.Proofs.Contribution

namespace MigrationAudit

/-- Where an issue about a file comes from: the place of the file in the input, and that of the rule
among the rules. -/
structure Origin where
  file : Nat
  rule : Nat
  deriving DecidableEq, Repr

namespace Origin

def Precedes (a b : Origin) : Prop := a.file < b.file ∨ a.file = b.file ∧ a.rule < b.rule

/-- The rule at the origin raises the issue in the text of the accepted file there. -/
def Raises (rules : List Rule) (files : List InputFile) (o : Origin) (i : Issue) : Prop :=
  ∃ f r text, files[o.file]? = some f ∧ f.isAccepted ∧ f.text? = some text ∧
    rules[o.rule]? = some r ∧ r.issue? f.name text = some i

theorem Raises.not_isProjectLevel {rules : List Rule} {files : List InputFile} {o : Origin}
    {i : Issue} (h : o.Raises rules files i) : i.isProjectLevel = false := by
  obtain ⟨f, r, text, -, accepted, -, -, hi⟩ := h
  exact InputFile.not_isProjectLevel_of_issue? accepted hi

theorem Raises.rule_eq {rules : List Rule} {files : List InputFile} {o o' : Origin} {i i' : Issue}
    (distinct : (rules.map Rule.id).Nodup) (h : o.Raises rules files i)
    (h' : o'.Raises rules files i') (same : i.id = i'.id) : o.rule = o'.rule := by
  obtain ⟨_, r, _, _, _, _, hr, hi⟩ := h
  obtain ⟨_, r', _, _, _, _, hr', hi'⟩ := h'
  have hid : r.id = r'.id := (Rule.issue?_id hi).symm.trans (same.trans (Rule.issue?_id hi'))
  have hlt : o.rule < (rules.map Rule.id).length := by
    simpa using (List.getElem?_eq_some_iff.mp hr).1
  apply (List.getElem?_inj hlt distinct).mp
  simp [hr, hr', hid]

def ofFile (rules : List Rule) (f : InputFile) (n : Nat) : List (Origin × Issue) :=
  if f.isAccepted then
    f.text?.elim [] fun text =>
      rules.zipIdx.filterMap fun (r, k) => (r.issue? f.name text).map fun i => (⟨n, k⟩, i)
  else []

def ofFiles (rules : List Rule) (files : List InputFile) : List (Origin × Issue) :=
  files.zipIdx.flatMap fun (f, n) => ofFile rules f n

theorem map_snd_ofFile (rules : List Rule) (f : InputFile) (n : Nat) :
    (ofFile rules f n).map Prod.snd = f.contribution rules := by
  unfold ofFile
  split_ifs with accepted
  · cases ht : f.text? with
    | none => simp [InputFile.contribution_of_text?_eq_none ht]
    | some text =>
      rw [InputFile.contribution_of_text?_eq_some accepted ht, Option.elim_some, List.map_filterMap]
      simp only [Option.map_map, Function.comp_def, Option.map_id']
      conv => rhs; rw [← List.zipIdx_map_fst 0 rules, List.filterMap_map]
      rfl
  · simp [InputFile.contribution, accepted]

theorem map_snd_ofFiles (rules : List Rule) (files : List InputFile) :
    (ofFiles rules files).map Prod.snd = files.flatMap (InputFile.contribution rules) := by
  simp only [ofFiles, List.map_flatMap, map_snd_ofFile]
  conv => rhs; rw [← List.zipIdx_map_fst 0 files, List.flatMap_map]

theorem mem_ofFile {rules : List Rule} {f : InputFile} {n : Nat} {o : Origin} {i : Issue} :
    (o, i) ∈ ofFile rules f n ↔ o.file = n ∧ f.isAccepted ∧
      ∃ r text, f.text? = some text ∧ rules[o.rule]? = some r ∧ r.issue? f.name text = some i := by
  obtain ⟨m, k⟩ := o
  unfold ofFile
  split_ifs with accepted
  · cases ht : f.text? with
    | none => simp
    | some text =>
      simp only [Option.elim_some, List.mem_filterMap, List.mem_zipIdx_iff_getElem?,
        Option.map_eq_some_iff, Prod.mk.injEq, mk.injEq, Prod.exists]
      constructor
      · rintro ⟨r, k, hr, i, hi, ⟨rfl, rfl⟩, rfl⟩
        exact ⟨rfl, accepted, r, text, rfl, hr, hi⟩
      · rintro ⟨rfl, -, r, _, ⟨⟩, hr, hi⟩
        exact ⟨r, k, hr, i, hi, ⟨rfl, rfl⟩, rfl⟩
  · simp [accepted]

theorem mem_ofFiles {rules : List Rule} {files : List InputFile} {o : Origin} {i : Issue} :
    (o, i) ∈ ofFiles rules files ↔ o.Raises rules files i := by
  simp only [ofFiles, List.mem_flatMap, mem_ofFile, Raises, List.mem_zipIdx_iff_getElem?,
    Prod.exists]
  constructor
  · rintro ⟨f, n, hf, rfl, accepted, r, text, ht, hr, hi⟩
    exact ⟨f, r, text, hf, accepted, ht, hr, hi⟩
  · rintro ⟨f, r, text, hf, accepted, ht, hr, hi⟩
    exact ⟨f, o.file, hf, rfl, accepted, r, text, ht, hr, hi⟩

theorem pairwise_snd_zipIdx {α : Type} (xs : List α) :
    xs.zipIdx.Pairwise fun a b => a.2 < b.2 := by
  rw [← List.pairwise_map (f := Prod.snd) (R := (· < ·)), List.zipIdx_map_snd]
  exact List.pairwise_lt_range'

theorem pairwise_ofFile (rules : List Rule) (f : InputFile) (n : Nat) :
    (ofFile rules f n).Pairwise fun a b => a.1.Precedes b.1 := by
  unfold ofFile
  split_ifs
  · cases f.text? with
    | none => simp
    | some text =>
      apply List.pairwise_filterMap.mpr
      apply (pairwise_snd_zipIdx rules).imp
      intro (r, k) (r', k') hlt p hp p' hp'
      obtain ⟨i, -, rfl⟩ := Option.map_eq_some_iff.mp hp
      obtain ⟨i', -, rfl⟩ := Option.map_eq_some_iff.mp hp'
      exact .inr ⟨rfl, hlt⟩
  · simp

theorem pairwise_ofFiles (rules : List Rule) (files : List InputFile) :
    (ofFiles rules files).Pairwise fun a b => a.1.Precedes b.1 := by
  -- Within a file the rules decide, between two files the files do.
  apply List.pairwise_flatMap.mpr
  constructor
  · intro (f, n) _
    exact pairwise_ofFile rules f n
  · apply (pairwise_snd_zipIdx files).imp
    intro (f, n) (g, m) hlt (o, i) ho (o', i') ho'
    left
    rwa [(mem_ofFile.mp ho).1, (mem_ofFile.mp ho').1]

theorem once_ofFiles {rules : List Rule} (distinct : (rules.map Rule.id).Nodup)
    (files : List InputFile) :
    (ofFiles rules files).Pairwise fun p q => p.1.file ≠ q.1.file ∨ p.2.id ≠ q.2.id := by
  apply (pairwise_ofFiles rules files).imp_of_mem
  intro (o, i) (o', i') ho ho' precedes
  rcases precedes with hlt | ⟨-, hlt⟩
  · exact .inl (Nat.ne_of_lt hlt)
  · right
    intro same
    exact Nat.ne_of_lt hlt ((mem_ofFiles.mp ho).rule_eq distinct (mem_ofFiles.mp ho') same)

end Origin

/-- The list `labelled` tells of each issue about a file in an analysis where it comes from. -/
structure Labelling (rules : List Rule) (files : List InputFile) (a : Analysis)
    (labelled : List (Origin × Issue)) : Prop where
  issues_eq : a.issues = labelled.map Prod.snd ++ a.shape.issues
  ascending : labelled.Pairwise fun p q => p.1.Precedes q.1
  /-- What is raised is listed, and nothing else. -/
  mem_iff : ∀ o i, (o, i) ∈ labelled ↔ o.Raises rules files i
  /-- No rule speaks twice about one file, whatever other files are called. -/
  once : labelled.Pairwise fun p q => p.1.file ≠ q.1.file ∨ p.2.id ≠ q.2.id
  carries : ∀ o i, (o, i) ∈ labelled → ∃ f r text, files[o.file]? = some f ∧ f.isAccepted ∧
    f.text? = some text ∧ rules[o.rule]? = some r ∧ i.id = r.id ∧ i.file = f.name ∧
    i.occurrences = (r.findAll text).length ∧ 1 ≤ i.occurrences
  findings : a.shape.issues.Sublist
    [Shape.missingManifest, Shape.missingGradle, Shape.large a.shape.totalFiles]
  isProjectLevel_iff : ∀ i ∈ a.issues, i.isProjectLevel ↔ i.occurrences = 0
  occurrences_iff : ∀ i ∈ a.issues, i.occurrences = 0 ↔ i ∈ a.shape.issues

theorem Labelling.of_distinct {rules : List Rule} (distinct : (rules.map Rule.id).Nodup)
    (files : List InputFile) :
    Labelling rules files (.ofFiles rules files) (Origin.ofFiles rules files) := by
  have hissues : (Analysis.ofFiles rules files).issues =
      (Origin.ofFiles rules files).map Prod.snd ++ (Analysis.ofFiles rules files).shape.issues := by
    rw [Origin.map_snd_ofFiles]
    rfl
  have carries : ∀ o i, (o, i) ∈ Origin.ofFiles rules files → ∃ f r text, files[o.file]? = some f ∧
      f.isAccepted ∧ f.text? = some text ∧ rules[o.rule]? = some r ∧ i.id = r.id ∧ i.file = f.name ∧
      i.occurrences = (r.findAll text).length ∧ 1 ≤ i.occurrences := by
    intro o i ho
    obtain ⟨f, r, text, hf, accepted, ht, hr, hi⟩ := Origin.mem_ofFiles.mp ho
    exact ⟨f, r, text, hf, accepted, ht, hr, Rule.issue?_id hi, Rule.issue?_file hi,
      Rule.issue?_occurrences hi⟩
  -- An issue is either raised in a file, with a count and a file name, or a finding, with neither.
  have sides : ∀ i ∈ (Analysis.ofFiles rules files).issues,
      (i.isProjectLevel = false ∧ i.occurrences ≠ 0) ∨
        i ∈ (Analysis.ofFiles rules files).shape.issues := by
    intro i hi
    rw [hissues, List.mem_append, List.mem_map] at hi
    rcases hi with ⟨⟨o, i⟩, ho, rfl⟩ | hi
    · obtain ⟨_, _, _, _, _, _, _, _, _, _, hpos⟩ := carries o i ho
      exact .inl ⟨(Origin.mem_ofFiles.mp ho).not_isProjectLevel, Nat.ne_of_gt hpos⟩
    · exact .inr hi
  refine ⟨hissues, Origin.pairwise_ofFiles rules files, fun o i => Origin.mem_ofFiles,
    Origin.once_ofFiles distinct files, carries, Shape.issues_sublist _, ?_, ?_⟩
  · intro i hi
    rcases sides i hi with ⟨hfile, hcount⟩ | hfound
    · simp [hfile, hcount]
    · simp [Shape.isProjectLevel_of_mem_issues hfound]
  · intro i hi
    rcases sides i hi with ⟨hfile, hcount⟩ | hfound
    · refine ⟨fun h => absurd h hcount, fun h => ?_⟩
      simp [(Shape.isProjectLevel_of_mem_issues h).1] at hfile
    · simp [Shape.isProjectLevel_of_mem_issues hfound, hfound]

/-- An analysis lists the issues about files by file and then by rule, and after them what there is
to say about the project, which alone has no occurrences. -/
theorem Analysis.issues_labelled (rules : List Rule) (files : List InputFile)
    (distinct : (rules.map Rule.id).Nodup) (some_file : files ≠ []) :
    ∃ a labelled, (Analysis.ofFiles? rules files).value = some a ∧
      Labelling rules files a labelled :=
  ⟨.ofFiles rules files, Origin.ofFiles rules files,
    value_ofFiles?_of_ne_nil rules some_file, .of_distinct distinct files⟩

/-- Two files of one name, among other files. -/
theorem Analysis.issues_labelled_same_name :
    let java : InputFile := ⟨"A.java", none, some "Camera2".toUTF8⟩
    let files := [java, ⟨"Project Structure", none, some "CameraX".toUTF8⟩, java]
    ([Catalog.cameraApi, Catalog.workProfile].map Rule.id).Nodup ∧ files ≠ [] ∧
      ∃ a labelled,
        (Analysis.ofFiles? [Catalog.cameraApi, Catalog.workProfile] files).value = some a ∧
          Labelling [Catalog.cameraApi, Catalog.workProfile] files a labelled :=
  ⟨by decide, by simp, Analysis.issues_labelled _ _ (by decide) (by simp)⟩

end MigrationAudit
