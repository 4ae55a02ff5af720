import MigrationAudit.Settings

namespace MigrationAudit.Settings

def rootOf (tree : FileTree) (o : Overrides) : Path := detectRoot tree (o.root.getD ⟨"."⟩)

def preferencesOf (config : Option (Path × Preferences)) : Preferences :=
  (config.map (·.2)).getD .empty

def effective (root : Path) (o : Overrides) (config : Option (Path × Preferences)) : Settings where
  root := root
  configPath := config.map (·.1)
  output := ((o.output <|> (preferencesOf config).output).map OutputMode.parse).getD .human
  view := ((o.view <|> (preferencesOf config).view).map fun name =>
    (View.parse name).value).getD .all
  failOn := (o.failOn <|> (preferencesOf config).failOn).bind Severity.parse?
  exclude := (preferencesOf config).exclude

/-- The option goes before the settings file. -/
theorem failOn_effective (root : Path) (o : Overrides) (config : Option (Path × Preferences)) :
    (effective root o config).failOn = (o.failOn <|> (preferencesOf config).failOn).bind
      Severity.parse? :=
  rfl

theorem value_resolve (tree : FileTree) (o : Overrides) :
    (resolve tree o).value = (load? tree (rootOf tree o)).map (effective (rootOf tree o) o) := by
  unfold resolve rootOf
  dsimp only
  cases load? tree (detectRoot tree (o.root.getD ⟨"."⟩)) with
  | error e => rfl
  | ok config =>
    simp only [Except.map, effective, preferencesOf]
    generalize (Option.map (fun c : Path × Preferences => c.2) config).getD .empty = preferences
    cases o.view <|> preferences.view with
    | none => rfl
    | some name => rfl

theorem resolve_eq_ok_iff {tree : FileTree} {o : Overrides} {s : Settings} :
    (resolve tree o).value = .ok s ↔ ∃ config,
      load? tree (rootOf tree o) = .ok config ∧ effective (rootOf tree o) o config = s := by
  rw [value_resolve]
  cases load? tree (rootOf tree o) <;> simp [Except.map]

/-- Where a scan starts from is a matter of the root that is asked for, and of no other option. -/
theorem rootOf_congr (tree : FileTree) {o o' : Overrides} (hroot : o'.root = o.root) :
    rootOf tree o' = rootOf tree o := by
  rw [rootOf, rootOf, hroot]

/-- Options that ask for the same root lead to the same files. -/
theorem exists_resolve_of_root {tree : FileTree} {o o' : Overrides} {s : Settings}
    (hroot : o'.root = o.root) (h : (resolve tree o).value = .ok s) :
    ∃ s', (resolve tree o').value = .ok s' ∧ s'.root = s.root ∧ s'.exclude = s.exclude ∧
      (o'.failOn = o.failOn → s'.failOn = s.failOn) := by
  obtain ⟨config, hload, rfl⟩ := resolve_eq_ok_iff.mp h
  rw [← rootOf_congr tree hroot] at hload
  refine ⟨_, resolve_eq_ok_iff.mpr ⟨config, hload, rfl⟩, rootOf_congr tree hroot, rfl, ?_⟩
  intro hfailOn
  rw [failOn_effective, failOn_effective, hfailOn]

theorem rootOf_of_root (tree : FileTree) {o : Overrides} {start : Path}
    (hroot : o.root = some start) : rootOf tree o = detectRoot tree start := by
  rw [rootOf, hroot, Option.getD_some]

section Options

variable (tree : FileTree)

/-- Options that ask for the same root change the settings alike, whatever the settings file
prefers. -/
theorem value_resolve_map (o o' : Overrides) {change : Settings → Settings}
    (hroot : o'.root = o.root)
    (h : ∀ root config, effective root o' config = change (effective root o config)) :
    (resolve tree o').value = (resolve tree o).value.map change := by
  rw [value_resolve, value_resolve, rootOf_congr tree hroot]
  cases load? tree (rootOf tree o) with
  | error e => rfl
  | ok config => exact congrArg Except.ok (h _ config)

variable (o : Overrides) (value : String)

theorem value_resolve_output :
    (resolve tree { o with output := some value }).value =
      (resolve tree o).value.map fun s => { s with output := OutputMode.parse value } := by
  apply value_resolve_map tree o { o with output := some value } rfl
  intro root config
  simp only [effective, Option.orElse_eq_orElse, Option.orElse_some, Option.map_some,
    Option.getD_some]

theorem value_resolve_view :
    (resolve tree { o with view := some value }).value =
      (resolve tree o).value.map fun s => { s with view := (View.parse value).value } := by
  apply value_resolve_map tree o { o with view := some value } rfl
  intro root config
  simp only [effective, Option.orElse_eq_orElse, Option.orElse_some, Option.map_some,
    Option.getD_some]

theorem value_resolve_failOn :
    (resolve tree { o with failOn := some value }).value =
      (resolve tree o).value.map fun s => { s with failOn := Severity.parse? value } := by
  apply value_resolve_map tree o { o with failOn := some value } rfl
  intro root config
  simp only [effective, Option.orElse_eq_orElse, Option.orElse_some, Option.bind_some]

end Options

end MigrationAudit.Settings
