import MigrationAudit.Program
import MigrationAudit.Proofs.Collecting
import MigrationAudit.Proofs.Contribution
import MigrationAudit.Proofs.Effective

namespace MigrationAudit

theorem Glob.parseAll_eq_error_iff {sources : List String} :
    (∃ f, parseAll sources = .error f) ↔ ∃ s ∈ sources, ∃ e, parse s = .error e := by
  induction sources with
  | nil => simp [parseAll, List.mapM_nil, pure, Except.pure]
  | cons s sources ih =>
    rw [List.exists_mem_cons_iff, ← ih, parseAll, parseAll, List.mapM_cons]
    cases parse s with
    | error e => simp [Except.mapError, bind, Except.bind]
    | ok g =>
      cases sources.mapM fun s => (parse s).mapError (Failure.badGlob s) with
      | error f => simp [Except.mapError, bind, Except.bind]
      | ok globs => simp [Except.mapError, bind, Except.bind, pure, Except.pure]

namespace Discovery

variable {tree : FileTree} {root : Path} {paths : List Path} {excludes : List Glob}

theorem collect_eq_error_iff :
    (∃ f, (collect tree root paths excludes).value = .error f) ↔
      ∃ target ∈ targets root paths, ¬(tree.isFile target ∨ tree.isDirectory target) := by
  have hmissing (target : Path) :
      isMissing tree target ↔ ¬(tree.isFile target ∨ tree.isDirectory target) := by
    simp [isMissing]
  simp only [← hmissing]
  rw [value_collect]
  cases hfind : (targets root paths).find? (isMissing tree) with
  | none => simpa using hfind
  | some target =>
    have htarget := List.find?_some hfind
    have hmem := List.mem_of_find?_eq_some hfind
    simpa using ⟨target, hmem, htarget⟩

theorem isAccepted_of_load? {relative : String} {p : Path} {f : InputFile}
    (h : (load? tree excludes relative p).value = some f) : f.isAccepted := by
  rw [value_load?_eq, Option.ite_none_right_eq_some] at h
  obtain ⟨hkept, ⟨⟩⟩ := h
  rw [isKept, Bool.and_eq_true] at hkept
  exact hkept.1

/-- Whatever is collected is analyzed: the two go by the same names. -/
theorem isAccepted_of_collect {files : List InputFile}
    (h : (collect tree root paths excludes).value = .ok files) : ∀ f ∈ files, f.isAccepted := by
  rw [value_collect] at h
  split at h
  · cases h
  · cases h
    intro f hf
    obtain ⟨e, -, he⟩ := List.mem_filterMap.mp hf
    exact isAccepted_of_load? he

end Discovery

namespace Program

/-- A scan goes wrong: the settings file, an exclude or a target is at fault. -/
inductive Fails (tree : FileTree) (paths : List Path) (o : Overrides) : Prop
  | config (f : Failure) (unusable : Settings.load? tree (Settings.rootOf tree o) = .error f)
  | exclude (s : Settings) (pattern : String) (e : GlobError)
      (resolved : (Settings.resolve tree o).value = .ok s) (mem : pattern ∈ s.exclude)
      (bad : Glob.parse pattern = .error e)
  | target (s : Settings) (target : Path) (resolved : (Settings.resolve tree o).value = .ok s)
      (mem : target ∈ Discovery.targets s.root paths)
      (missing : ¬(tree.isFile target ∨ tree.isDirectory target))

/-- A scan gets as far as the files: nothing is wrong with settings, excludes and targets. -/
structure Collects (tree : FileTree) (paths : List Path) (o : Overrides) (s : Settings)
    (files : List InputFile) : Prop where
  resolved : (Settings.resolve tree o).value = .ok s
  collected : ∃ excludes, Glob.parseAll s.exclude = .ok excludes ∧
    (Discovery.collect tree s.root paths excludes).value = .ok files

section

variable {tree : FileTree} {paths : List Path} {o : Overrides} {s : Settings}
    {files : List InputFile}

theorem Collects.not_fails (h : Collects tree paths o s files) : ¬Fails tree paths o := by
  obtain ⟨excludes, hparse, hcollect⟩ := h.collected
  intro hfails
  cases hfails with
  | config f unusable =>
    have hresolved := h.resolved
    rw [Settings.value_resolve, unusable] at hresolved
    cases hresolved
  | exclude s' pattern e resolved mem bad =>
    obtain rfl : s = s' := Except.ok.inj (h.resolved.symm.trans resolved)
    obtain ⟨f, hf⟩ := Glob.parseAll_eq_error_iff.mpr ⟨pattern, mem, e, bad⟩
    rw [hparse] at hf
    cases hf
  | target s' target resolved mem missing =>
    obtain rfl : s = s' := Except.ok.inj (h.resolved.symm.trans resolved)
    have hfailed : ∃ f, (Discovery.collect tree s.root paths excludes).value = .error f :=
      Discovery.collect_eq_error_iff.mpr ⟨target, mem, missing⟩
    obtain ⟨f, hf⟩ := hfailed
    rw [hcollect] at hf
    cases hf

theorem Collects.unique (h : Collects tree paths o s files) {s' : Settings}
    {files' : List InputFile} (h' : Collects tree paths o s' files') : s' = s ∧ files' = files := by
  obtain ⟨excludes, hparse, hcollect⟩ := h.collected
  obtain ⟨excludes', hparse', hcollect'⟩ := h'.collected
  obtain rfl : s' = s := Except.ok.inj (h'.resolved.symm.trans h.resolved)
  obtain rfl : excludes' = excludes := Except.ok.inj (hparse'.symm.trans hparse)
  exact ⟨rfl, Except.ok.inj (hcollect'.symm.trans hcollect)⟩

theorem Collects.analyzedFiles_eq (h : Collects tree paths o s files) (rules : List Rule) :
    (Analysis.ofFiles rules files).analyzedFiles = files.map InputFile.name := by
  obtain ⟨excludes, -, hcollect⟩ := h.collected
  rw [Analysis.ofFiles, List.filter_eq_self.mpr (Discovery.isAccepted_of_collect hcollect)]

/-- All that a scan can come to. -/
theorem scan_cases (tree : FileTree) (colour : Bool) (paths : List Path) (o : Overrides) :
    (Fails tree paths o ∧ (scan tree colour paths o).exitCode = 2 ∧
      (scan tree colour paths o).output = "") ∨
    ∃ s files, Collects tree paths o s files ∧
      (files = [] → (scan tree colour paths o).exitCode = 0 ∧
        (scan tree colour paths o).output = "") ∧
      (files ≠ [] →
        (scan tree colour paths o).exitCode =
          (if s.failsOn (Analysis.ofFiles Catalog.rules files).issues then 1 else 0) ∧
        (scan tree colour paths o).output =
          ((Analysis.ofFiles Catalog.rules files).report s.view).write colour s.output) := by
  unfold scan
  dsimp only
  cases hresolve : (Settings.resolve tree o).value with
  | error f =>
    refine .inl ⟨?_, rfl, rfl⟩
    rw [Settings.value_resolve] at hresolve
    cases hload : Settings.load? tree (Settings.rootOf tree o) with
    | error f => exact .config f hload
    | ok config =>
      rw [hload] at hresolve
      cases hresolve
  | ok s =>
    dsimp only
    cases hparse : Glob.parseAll s.exclude with
    | error f =>
      obtain ⟨pattern, hmem, e, hbad⟩ := Glob.parseAll_eq_error_iff.mp ⟨f, hparse⟩
      exact .inl ⟨.exclude s pattern e hresolve hmem hbad, rfl, rfl⟩
    | ok excludes =>
      dsimp only
      cases hcollect : (Discovery.collect tree s.root paths excludes).value with
      | error f =>
        obtain ⟨target, hmem, hmissing⟩ := Discovery.collect_eq_error_iff.mp ⟨f, hcollect⟩
        exact .inl ⟨.target s target hresolve hmem hmissing, rfl, rfl⟩
      | ok files =>
        refine .inr ⟨s, files, ⟨hresolve, excludes, hparse, hcollect⟩, ?_, ?_⟩
        · rintro rfl
          exact ⟨rfl, rfl⟩
        · intro some_file
          dsimp only
          rw [Analysis.value_ofFiles?_of_ne_nil _ some_file]
          exact ⟨rfl, rfl⟩

theorem Fails.scan (h : Fails tree paths o) (colour : Bool) :
    (scan tree colour paths o).exitCode = 2 ∧ (scan tree colour paths o).output = "" := by
  rcases scan_cases tree colour paths o with ⟨-, hscan⟩ | ⟨s, files, hcollects, -⟩
  · exact hscan
  · exact absurd h hcollects.not_fails

theorem Collects.scan_of_nil (h : Collects tree paths o s []) (colour : Bool) :
    (scan tree colour paths o).exitCode = 0 ∧ (scan tree colour paths o).output = "" := by
  rcases scan_cases tree colour paths o with ⟨hfails, -⟩ | ⟨s', files', hcollects, hnothing, -⟩
  · exact absurd hfails h.not_fails
  · exact hnothing (h.unique hcollects).2

theorem Collects.scan_of_ne_nil (h : Collects tree paths o s files) (some_file : files ≠ [])
    (colour : Bool) :
    (scan tree colour paths o).exitCode =
        (if s.failsOn (Analysis.ofFiles Catalog.rules files).issues then 1 else 0) ∧
      (scan tree colour paths o).output =
        ((Analysis.ofFiles Catalog.rules files).report s.view).write colour s.output := by
  rcases scan_cases tree colour paths o with ⟨hfails, -⟩ | ⟨s', files', hcollects, -, hreport⟩
  · exact absurd hfails h.not_fails
  · obtain ⟨rfl, rfl⟩ := h.unique hcollects
    exact hreport some_file

theorem Collects.exitCode_zero_or_one (h : Collects tree paths o s files) (some_file : files ≠ [])
    (colour : Bool) :
    (scan tree colour paths o).exitCode = 0 ∨ (scan tree colour paths o).exitCode = 1 := by
  rw [(h.scan_of_ne_nil some_file colour).1]
  split_ifs
  · exact .inr rfl
  · exact .inl rfl

end

end Program

end MigrationAudit
