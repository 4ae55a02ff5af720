import MigrationAudit.Session
import MigrationAudit.Proofs.Contribution

namespace MigrationAudit

theorem Severity.ofName?_eq_some_iff {name : String} {s : Severity} :
    ofName? name = some s ↔ name = s.name := by
  constructor
  · intro h
    unfold ofName? at h
    split at h <;> cases h <;> rfl
  · rintro rfl
    exact ofName?_name s

namespace View

theorem value_parse_name (s : Severity) : (parse s.name).value = only s := by
  have hall : s.name ≠ all.name := by cases s <;> decide
  rw [parse, if_neg hall, Severity.ofName?_name]
  rfl

theorem value_parse_of_ne_name {name : String} (h : ∀ s : Severity, name ≠ s.name) :
    (parse name).value = all := by
  have hnone : Severity.ofName? name = none :=
    Option.eq_none_iff_forall_ne_some.mpr fun s hs => h s (Severity.ofName?_eq_some_iff.mp hs)
  unfold parse
  split
  · rfl
  · rw [hnone]
    rfl

theorem select_all (issues : List Issue) : all.select issues = issues :=
  List.filter_eq_self.mpr fun _ _ => rfl

theorem select_only (s : Severity) (issues : List Issue) :
    (only s).select issues = issues.filter fun i => i.severity = s :=
  List.filter_congr fun _ _ => decide_eq_decide.mpr eq_comm

end View

namespace Session

def Step.scanned? : Step → Option (List InputFile)
  | .scan [] => none
  | .scan files => some files
  | .select _ | .report _ | .current => none

theorem Step.scanned?_eq_none_iff {step : Step} :
    step.scanned? = none ↔ ∀ files, step = .scan files → files = [] := by
  cases step with
  | scan files => cases files <;> simp [scanned?]
  | select _ | report _ | current => simp [scanned?]

theorem Step.scanned?_scan {files : List InputFile} (h : files ≠ []) :
    (Step.scan files).scanned? = some files := by
  cases files with
  | nil => exact absurd rfl h
  | cons f rest => rfl

def lastScanned? (steps : List Step) : Option (List InputFile) :=
  (steps.filterMap Step.scanned?).getLast?

theorem lastScanned?_append (a b : List Step) :
    lastScanned? (a ++ b) = (lastScanned? b).or (lastScanned? a) := by
  rw [lastScanned?, List.filterMap_append, List.getLast?_append]
  rfl

theorem lastScanned?_singleton (step : Step) : lastScanned? [step] = step.scanned? := by
  unfold lastScanned?
  cases h : step.scanned? <;> simp [h]

theorem lastScanned?_eq_none_iff {steps : List Step} :
    lastScanned? steps = none ↔ ∀ files, Step.scan files ∈ steps → files = [] := by
  rw [lastScanned?, List.getLast?_eq_none_iff, List.filterMap_eq_nil_iff]
  simp only [Step.scanned?_eq_none_iff]
  constructor
  · intro h files hmem
    exact h _ hmem files rfl
  · rintro h _ hmem files rfl
    exact h files hmem

def issues (s : Session) : List Issue := s.current.elim [] Analysis.issues

section Step

variable (s : Session)

theorem value_scan {files : List InputFile} (h : files ≠ []) :
    (s.scan files).value = ⟨some (.ofFiles Catalog.rules files)⟩ := by
  rw [scan, Logged.value_bind, Analysis.value_ofFiles?_of_ne_nil _ h]
  rfl

theorem value_select (view : String) :
    (s.select view).value = (View.parse view).value.select s.issues := by
  unfold select issues
  cases s.current with
  | none => rfl
  | some a => rfl

/-- A step replaces the latest analysis if it analyzes files, and else leaves it. -/
theorem current_step (step : Step) :
    (s.step step).value.1.current =
      (step.scanned?.map (Analysis.ofFiles Catalog.rules)).or s.current := by
  cases step with
  | scan files =>
    cases files with
    | nil => rfl
    | cons f rest =>
      have hscan := s.value_scan (List.cons_ne_nil f rest)
      rw [Session.step, Logged.value_bind, hscan]
      rfl
  | select _ | report _ | current => rfl

theorem value_run_cons (step : Step) (steps : List Step) :
    (s.run (step :: steps)).value =
      (((s.step step).value.1.run steps).value.1,
        (s.step step).value.2 :: ((s.step step).value.1.run steps).value.2) := rfl

/-- After some steps the latest analysis is that of the last files among them. -/
theorem current_run (steps : List Step) :
    (s.run steps).value.1.current =
      ((lastScanned? steps).map (Analysis.ofFiles Catalog.rules)).or s.current := by
  -- What the first step leaves is the start of the other steps.
  induction steps generalizing s with
  | nil => rfl
  | cons step steps ih =>
    rw [value_run_cons, ih, current_step, ← List.singleton_append, lastScanned?_append,
      lastScanned?_singleton, ← Option.or_assoc]
    cases lastScanned? steps <;> rfl

/-- Each step is answered from what the steps before it came to. -/
theorem getElem?_answers (steps : List Step) (n : Nat) :
    (s.run steps).value.2[n]? =
      steps[n]?.map fun step => ((s.run (steps.take n)).value.1.step step).value.2 := by
  induction steps generalizing s n with
  | nil => rfl
  | cons step steps ih =>
    rw [value_run_cons]
    cases n with
    | zero => rfl
    | succ n => simpa [value_run_cons] using ih (s.step step).value.1 n

end Step

/-- A session after some steps: it holds the analysis of the last files scanned in them, and answers
from it. -/
structure HoldsLatest (steps : List Step) (s : Session) : Prop where
  absent : s.current = none ↔ ∀ files, Step.scan files ∈ steps → files = []
  latest : ∀ before files after, steps = before ++ .scan files :: after → files ≠ [] →
    (∀ later, Step.scan later ∈ after → later = []) →
    s.current = (Analysis.ofFiles? Catalog.rules files).value
  /-- No files at all are no scan. -/
  scan_nil : (s.step (.scan [])).value = (s, .analysis (s.current.map fun a => (a, a.report .all)))
  scan : ∀ files, files ≠ [] → ∃ a, (Analysis.ofFiles? Catalog.rules files).value = some a ∧
    (s.step (.scan files)).value = (⟨some a⟩, .analysis (some (a, a.report .all)))
  select : ∀ view, ∃ selected, (s.step (.select view)).value = (s, .issues selected) ∧
    (∀ severity : Severity, view = severity.name →
      selected = s.issues.filter fun i => i.severity = severity) ∧
    ((∀ severity : Severity, view ≠ severity.name) → selected = s.issues)
  report : ∀ view, (s.step (.report view)).value =
    (s, .analysis (s.current.map fun a => (a, a.report (View.parse view).value)))
  current : (s.step .current).value = (s, .state s.current)

theorem holdsLatest_run (steps : List Step) : HoldsLatest steps (new.run steps).value.1 := by
  have hcurrent : (new.run steps).value.1.current =
      (lastScanned? steps).map (Analysis.ofFiles Catalog.rules) := by
    rw [current_run]
    exact Option.or_none
  generalize (new.run steps).value.1 = s at hcurrent
  refine ⟨?absent, ?latest, rfl, ?scan, ?select, fun _ => rfl, rfl⟩
  case absent =>
    rw [hcurrent, Option.map_eq_none_iff, lastScanned?_eq_none_iff]
  case latest =>
    rintro before files after rfl hne hlater
    have hlast : lastScanned? (before ++ .scan files :: after) = some files := by
      rw [lastScanned?_append, ← List.singleton_append, lastScanned?_append,
        lastScanned?_eq_none_iff.mpr hlater, lastScanned?_singleton, Step.scanned?_scan hne]
      rfl
    rw [hcurrent, hlast, Analysis.value_ofFiles?_of_ne_nil _ hne]
    rfl
  case scan =>
    intro files hne
    refine ⟨_, Analysis.value_ofFiles?_of_ne_nil _ hne, ?_⟩
    rw [step, Logged.value_bind, s.value_scan hne]
    rfl
  case select =>
    intro view
    refine ⟨_, rfl, ?_, fun hview => ?_⟩
    · rintro severity rfl
      rw [value_select, View.value_parse_name, View.select_only]
    · rw [value_select, View.value_parse_of_ne_name hview, View.select_all]

/-- However a session goes on, after each of its steps the last files that were scanned count and no
others, and only a scan of files changes that. -/
theorem run_keeps_latest_scan (steps : List Step) (n : Nat) :
    HoldsLatest (steps.take n) (new.run (steps.take n)).value.1 ∧
      (new.run steps).value.2[n]? =
        steps[n]?.map fun step => ((new.run (steps.take n)).value.1.step step).value.2 :=
  ⟨holdsLatest_run _, getElem?_answers new steps n⟩

end Session

end MigrationAudit
