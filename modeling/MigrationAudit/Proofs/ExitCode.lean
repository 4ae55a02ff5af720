import MigrationAudit.Proofs.Growing
import MigrationAudit.Proofs.LatestScan
import MigrationAudit.Proofs.ListedOnce
import MigrationAudit.Proofs.NearestConfig
import MigrationAudit.Proofs.Stages

namespace MigrationAudit

theorem Severity.parse?_eq_none_iff {word : String} :
    parse? word = none ↔ Text.lower (Text.trim word) ∉ ["critical", "warning", "warn", "info"] := by
  have hname : ofName? (Text.lower (Text.trim word)) = none ↔
      ∀ s : Severity, Text.lower (Text.trim word) ≠ s.name := by
    simp only [Option.eq_none_iff_forall_ne_some, ne_eq, ofName?_eq_some_iff]
  unfold parse?
  dsimp only
  split_ifs with hwarn
  · simp [hwarn]
  · rw [hname]
    constructor
    · intro h
      simpa [hwarn] using ⟨h critical, h warning, h info⟩
    · intro h s hs
      rw [hs] at h
      cases s <;> exact h (by decide)

namespace Program

section

variable {tree : FileTree} {paths : List Path} {o o' : Overrides} {s : Settings}
    {files : List InputFile}

theorem Collects.exists_config (h : Collects tree paths o s files) :
    ∃ config, Settings.load? tree (Settings.rootOf tree o) = .ok config ∧
      Settings.effective (Settings.rootOf tree o) o config = s :=
  Settings.resolve_eq_ok_iff.mp h.resolved

/-- The other options have no part in what is collected. -/
theorem Collects.congr_root (h : Collects tree paths o s files) (hroot : o'.root = o.root) :
    ∃ s', Collects tree paths o' s' files ∧ (o'.failOn = o.failOn → s'.failOn = s.failOn) := by
  obtain ⟨s', hresolved, hsame, hexclude, hfailOn⟩ :=
    Settings.exists_resolve_of_root hroot h.resolved
  refine ⟨s', ⟨hresolved, ?_⟩, hfailOn⟩
  rw [hsame, hexclude]
  exact h.collected

theorem Fails.congr_root (h : Fails tree paths o) (hroot : o'.root = o.root) :
    Fails tree paths o' := by
  cases h with
  | config f unusable => exact .config f (Settings.rootOf_congr tree hroot ▸ unusable)
  | exclude s pattern e resolved mem bad =>
    obtain ⟨s', resolved', -, hexclude, -⟩ := Settings.exists_resolve_of_root hroot resolved
    exact .exclude s' pattern e resolved' (hexclude ▸ mem) bad
  | target s target resolved mem missing =>
    obtain ⟨s', resolved', hsame, -, -⟩ := Settings.exists_resolve_of_root hroot resolved
    exact .target s' target resolved' (hsame ▸ mem) missing

/-- Whatever a scan comes to, its exit code hangs on the root and the severity that are asked for
only. -/
theorem exitCode_congr (hroot : o'.root = o.root) (hfailOn : o'.failOn = o.failOn)
    (colour colour' : Bool) :
    (scan tree colour' paths o').exitCode = (scan tree colour paths o).exitCode := by
  rcases scan_cases tree colour paths o with ⟨hfails, hexit, -⟩ | ⟨s, files, hcollects, -⟩
  · rw [hexit, ((hfails.congr_root hroot).scan colour').1]
  · obtain ⟨s', hcollects', hsame⟩ := hcollects.congr_root hroot
    by_cases hnil : files = []
    · subst hnil
      rw [(hcollects.scan_of_nil colour).1, (hcollects'.scan_of_nil colour').1]
    · rw [(hcollects.scan_of_ne_nil hnil colour).1, (hcollects'.scan_of_ne_nil hnil colour').1,
        Settings.failsOn, Settings.failsOn, hsame hfailOn]

theorem Collects.exitCode_eq_one_iff (h : Collects tree paths o s files) (some_file : files ≠ [])
    (colour : Bool) :
    (scan tree colour paths o).exitCode = 1 ↔ ∃ threshold, s.failOn = some threshold ∧
      ∃ i ∈ (Analysis.ofFiles Catalog.rules files).issues, i.severity.rank ≤ threshold.rank := by
  have hfailsOn := @Settings.failsOn_iff s (Analysis.ofFiles Catalog.rules files).issues
  simp only [Severity.atLeast, decide_eq_true_eq] at hfailsOn
  rw [(h.scan_of_ne_nil some_file colour).1, ← hfailsOn]
  split_ifs with hfails
  · simp [hfails]
  · simp [hfails]

/-- A scan of the same files that fails at less severe issues as well fails whenever the other
does. -/
theorem Collects.exitCode_mono (h : Collects tree paths o s files) (some_file : files ≠ [])
    {tree' : FileTree} {paths' : List Path} {s' : Settings} (h' : Collects tree' paths' o' s' files)
    {threshold threshold' : Severity} (hthreshold : s.failOn = some threshold)
    (hthreshold' : s'.failOn = some threshold') (hle : threshold.rank ≤ threshold'.rank)
    (colour colour' : Bool) (hexit : (scan tree colour paths o).exitCode = 1) :
    (scan tree' colour' paths' o').exitCode = 1 := by
  obtain ⟨t, ht, i, hi, hsevere⟩ := (h.exitCode_eq_one_iff some_file colour).mp hexit
  obtain rfl : t = threshold := Option.some.inj (ht.symm.trans hthreshold)
  apply (h'.exitCode_eq_one_iff some_file colour').mpr
  exact ⟨threshold', hthreshold', i, hi, Nat.le_trans hsevere hle⟩

end

/-- What the exit code of a scan of `files` tells of all issues that were found, whichever of them
the report shows. -/
structure ExitTells (tree : FileTree) (paths : List Path) (o : Overrides)
    (config : Option (Path × Preferences)) (s : Settings) (files : List InputFile) (a : Analysis)
    (exitCode : Nat) : Prop where
  loaded : Settings.load? tree (Settings.rootOf tree o) = .ok config
  /-- The option goes before the settings file. -/
  failOn : s.failOn = (o.failOn <|> (Settings.preferencesOf config).failOn).bind Severity.parse?
  analyzed : (Analysis.ofFiles? Catalog.rules files).value = some a
  one_iff : exitCode = 1 ↔ ∃ threshold, s.failOn = some threshold ∧
    ∃ i ∈ a.issues, i.severity.rank ≤ threshold.rank
  zero_otherwise : exitCode ≠ 1 → exitCode = 0
  /-- How the issues are shown does not count. -/
  shown : ∀ verbose colour o', o'.root = o.root → o'.failOn = o.failOn →
    (run tree colour ⟨verbose, .scan paths o'⟩).exitCode = exitCode
  milder : ∀ verbose colour tree' paths' o' s', Collects tree' paths' o' s' files →
    ∀ threshold threshold', s.failOn = some threshold → s'.failOn = some threshold' →
      threshold.rank ≤ threshold'.rank → exitCode = 1 →
        (run tree' colour ⟨verbose, .scan paths' o'⟩).exitCode = 1
  milder_option : ∀ verbose colour word threshold threshold', s.failOn = some threshold →
    Severity.parse? word = some threshold' → threshold.rank ≤ threshold'.rank → exitCode = 1 →
      (run tree colour ⟨verbose, .scan paths { o with failOn := some word }⟩).exitCode = 1
  /-- No other word makes a scan fail: `never` is only one of those that mean nothing. -/
  unrecognized : (∀ word, (o.failOn <|> (Settings.preferencesOf config).failOn) = some word →
    Text.lower (Text.trim word) ∉ ["critical", "warning", "warn", "info"]) → exitCode = 0

/-- A scan fails exactly if it found an issue that is as severe as allowed none to be. -/
theorem exit_code_tells (tree : FileTree) (colour verbose : Bool) (paths : List Path)
    (o : Overrides) (s : Settings) (files : List InputFile)
    (collects : Collects tree paths o s files) (some_file : files ≠ []) :
    ∃ config a, ExitTells tree paths o config s files a
      (run tree colour ⟨verbose, .scan paths o⟩).exitCode := by
  obtain ⟨config, loaded, hs⟩ := collects.exists_config
  have failOn : s.failOn = (o.failOn <|> (Settings.preferencesOf config).failOn).bind
      Severity.parse? := by
    rw [← hs, Settings.failOn_effective]
  have one_iff := collects.exitCode_eq_one_iff some_file colour
  have zero_or_one := collects.exitCode_zero_or_one some_file colour
  refine ⟨config, _, loaded, failOn, Analysis.value_ofFiles?_of_ne_nil _ some_file, one_iff,
    zero_or_one.resolve_right, ?shown, ?milder, ?milder_option, ?unrecognized⟩
  case shown =>
    intro _ colour' o' hroot hfailOn
    exact exitCode_congr hroot hfailOn colour colour'
  case milder =>
    intro _ colour' tree' paths' o' s' collects' threshold threshold' hthreshold hthreshold' hle
    exact collects.exitCode_mono some_file collects' hthreshold hthreshold' hle colour colour'
  case milder_option =>
    intro _ colour' word threshold threshold' hthreshold hword hle
    -- The same files are collected, and the word goes before what the settings file says.
    have hroot : Overrides.root { o with failOn := some word } = o.root := rfl
    obtain ⟨s', collects', -⟩ := collects.congr_root hroot
    obtain ⟨config', -, hs'⟩ := collects'.exists_config
    have hthreshold' : s'.failOn = some threshold' := by
      rw [← hs', Settings.failOn_effective]
      simpa only [Option.orElse_eq_orElse, Option.orElse_some, Option.bind_some] using hword
    exact collects.exitCode_mono some_file collects' hthreshold hthreshold' hle colour colour'
  case unrecognized =>
    intro hwords
    have hnever : s.failOn = none := by
      rw [failOn, Option.bind_eq_none_iff]
      intro word hword
      exact Severity.parse?_eq_none_iff.mpr (hwords word hword)
    apply zero_or_one.resolve_right
    intro hexit
    obtain ⟨threshold, hthreshold, -⟩ := one_iff.mp hexit
    rw [hnever] at hthreshold
    cases hthreshold

section OneFile

open Discovery

theorem rootOf_oneFileTree {o : Overrides} (hroot : o.root = some ⟨"/w"⟩) :
    Settings.rootOf (oneFileTree ⟨"/w"⟩) o = ⟨"/w"⟩ ∧
      Settings.load? (oneFileTree ⟨"/w"⟩) ⟨"/w"⟩ = .ok none := by
  have hscanned : Settings.isRoot (oneFileTree ⟨"/w"⟩) ⟨"/w"⟩ = false := by
    rw [Settings.isRoot_of_plain plain_oneFileTree ⟨by decide, by decide⟩]
    decide
  have habove : Settings.isRoot (oneFileTree ⟨"/w"⟩) ⟨"/"⟩ = false := by
    rw [Settings.isRoot_of_plain plain_oneFileTree ⟨by decide, by decide⟩]
    decide
  have hancestors : Path.ancestors ⟨"/w"⟩ = [⟨"/"⟩] := by decide
  refine ⟨?_, Settings.load?_of_not_isRoot hscanned⟩
  rw [Settings.rootOf_of_root _ hroot, Settings.detectRoot, hancestors, List.find?_cons, hscanned,
    List.find?_cons, habove]
  rfl

theorem value_collect_oneFileTree :
    (collect (oneFileTree ⟨"/w"⟩) ⟨"/w"⟩ [⟨"A.kt"⟩] []).value =
      .ok [⟨"A.kt", some "A.kt", some ⟨#[120]⟩⟩] := by
  have hnode : (oneFileTree ⟨"/w"⟩).node? ⟨"/w/A.kt"⟩ = some (.file (some ⟨#[120]⟩)) :=
    node?_oneFileTree ⟨by decide, by decide⟩ (by decide) (by decide) (by decide)
  have hfile : (oneFileTree ⟨"/w"⟩).isFile ⟨"/w/A.kt"⟩ := FileTree.isFile_iff.mpr ⟨_, hnode⟩
  have htargets : targets ⟨"/w"⟩ [⟨"A.kt"⟩] = [⟨"/w/A.kt"⟩] := by decide
  have hnone : (targets ⟨"/w"⟩ [⟨"A.kt"⟩]).find? (isMissing (oneFileTree ⟨"/w"⟩)) = none := by
    rw [htargets]
    simp [isMissing, hfile]
  have hall : allFiles (oneFileTree ⟨"/w"⟩) ⟨"/w"⟩ [⟨"A.kt"⟩] = [⟨"/w/A.kt"⟩] := by
    rw [allFiles, htargets]
    simp [filesUnder, hfile]
  have hrelative : Path.relativeTo ⟨"/w"⟩ ⟨"/w/A.kt"⟩ = "A.kt" := by decide
  have hname : Path.fileName? ⟨"/w/A.kt"⟩ = some "A.kt" := by decide
  have haccepted : InputFile.isAcceptedName "A.kt" := by decide +kernel
  rw [value_collect, hnone, hall]
  simp [arrange, hrelative, dropRepeats, value_load? _ _ hnode, hname, isKept, haccepted]

/-- The file is scanned without settings, and the report leaves out what makes the scan fail. -/
theorem exit_code_tells_critical :
    let o : Overrides := ⟨some ⟨"/w"⟩, none, some "info", some "Critical"⟩
    let s : Settings := ⟨⟨"/w"⟩, none, .human, .only .info, some .critical, []⟩
    let files : List InputFile := [⟨"A.kt", some "A.kt", some ⟨#[120]⟩⟩]
    Collects (oneFileTree ⟨"/w"⟩) [⟨"A.kt"⟩] o s files ∧ files ≠ [] ∧
      ∃ config a, ExitTells (oneFileTree ⟨"/w"⟩) [⟨"A.kt"⟩] o config s files a
        (run (oneFileTree ⟨"/w"⟩) false ⟨false, .scan [⟨"A.kt"⟩] o⟩).exitCode := by
  intro o s files
  obtain ⟨hroot, hload⟩ := rootOf_oneFileTree (o := o) rfl
  have hview : (View.parse "info").value = .only .info := View.value_parse_name .info
  have hfailOn : Severity.parse? "Critical" = some .critical := by decide +kernel
  have hsettings : Settings.effective ⟨"/w"⟩ o none = s := by
    simp only [Settings.effective, Settings.preferencesOf, Preferences.empty, o, s, hview, hfailOn,
      Option.map_none, Option.map_some, Option.getD_none, Option.getD_some, Option.bind_some,
      Option.orElse_eq_orElse, Option.orElse_none, Option.orElse_some]
  have hcollects : Collects (oneFileTree ⟨"/w"⟩) [⟨"A.kt"⟩] o s files := by
    refine ⟨Settings.resolve_eq_ok_iff.mpr ⟨none, ?_, ?_⟩, [], rfl, value_collect_oneFileTree⟩
    · rw [hroot, hload]
    · rw [hroot, hsettings]
  have some_file : files ≠ [] := List.cons_ne_nil _ _
  exact ⟨hcollects, some_file, exit_code_tells _ false false _ o s files hcollects some_file⟩

end OneFile

end Program

end MigrationAudit
