import MigrationAudit.Proofs.Contribution
import MigrationAudit.Proofs.Decoding

namespace MigrationAudit

/-- What a rule comes to in a text: the message that it gives there, or none. -/
inductive Rule.Verdict (r : Rule) (text : String) : Option String → Prop where
  | unmatched : r.findAll text = [] → Verdict r text none
  | fixed (message : String) : r.findAll text ≠ [] → r.advice = .fixed message →
    Verdict r text (some message)
  | advised (judge : Judge) (message : String) : r.findAll text ≠ [] →
    r.advice = .conditional judge → (judge text (r.findAll text)).value = .ok (some message) →
    message ≠ "" → Verdict r text (some message)
  | wordless (judge : Judge) : r.findAll text ≠ [] → r.advice = .conditional judge →
    (judge text (r.findAll text)).value = .ok (some "") → Verdict r text none
  | declined (judge : Judge) : r.findAll text ≠ [] → r.advice = .conditional judge →
    (judge text (r.findAll text)).value = .ok none → Verdict r text none
  | failed (judge : Judge) (error : JudgementError) : r.findAll text ≠ [] →
    r.advice = .conditional judge → (judge text (r.findAll text)).value = .error error →
    Verdict r text none

namespace Rule

theorem Verdict.issue?_eq {r : Rule} {text : String} {verdict : Option String}
    (h : r.Verdict text verdict) (file : String) :
    r.issue? file text = verdict.map (r.issueWith file text) := by
  cases h with
  | unmatched hfound => simp [issue?, hfound]
  | fixed message hfound hadvice => simp [issue?, hfound, hadvice, Advice.verdict?]
  | advised judge message hfound hadvice hjudge hmessage =>
    simp [issue?, hfound, hadvice, Advice.verdict?, hjudge, hmessage]
  | wordless judge hfound hadvice hjudge =>
    simp [issue?, hfound, hadvice, Advice.verdict?, hjudge]
  | declined judge hfound hadvice hjudge =>
    simp [issue?, hfound, hadvice, Advice.verdict?, hjudge]
  | failed judge error hfound hadvice hjudge =>
    simp [issue?, hfound, hadvice, Advice.verdict?, hjudge]

/-- Some verdict there is, whatever the judge does. -/
theorem exists_verdict (r : Rule) (text : String) : ∃ verdict, r.Verdict text verdict := by
  by_cases hfound : r.findAll text = []
  · exact ⟨none, .unmatched hfound⟩
  · cases hadvice : r.advice with
    | fixed message => exact ⟨some message, .fixed message hfound hadvice⟩
    | conditional judge =>
      rcases hjudge : (judge text (r.findAll text)).value with e | (_ | message)
      · exact ⟨none, .failed judge e hfound hadvice hjudge⟩
      · exact ⟨none, .declined judge hfound hadvice hjudge⟩
      · by_cases hmessage : message = ""
        · exact ⟨none, .wordless judge hfound hadvice (hmessage ▸ hjudge)⟩
        · exact ⟨some message, .advised judge message hfound hadvice hjudge hmessage⟩

theorem issue?_filter_id (p : String → Bool) (r : Rule) (file text : String) :
    (r.issue? file text).filter (fun i => p i.id) = if p r.id then r.issue? file text
      else none := by
  cases h : r.issue? file text with
  | none => simp
  | some i => simp [Option.filter, issue?_id h]

section

variable {rules : List Rule} {r : Rule} {n : Nat}

theorem split_of_distinct (distinct : (rules.map Rule.id).Nodup) (hr : rules[n]? = some r) :
    ∃ before after, rules = before ++ r :: after ∧ rules.eraseIdx n = before ++ after ∧
      (∀ s ∈ before, s.id ≠ r.id) ∧ ∀ s ∈ after, s.id ≠ r.id := by
  obtain ⟨hn, rfl⟩ := List.getElem?_eq_some_iff.mp hr
  have hsplit : rules = rules.take n ++ rules[n] :: rules.drop (n + 1) := by simp
  refine ⟨rules.take n, rules.drop (n + 1), hsplit, List.eraseIdx_eq_take_drop_succ .., ?_, ?_⟩
  · rw [hsplit, List.map_append, List.map_cons, List.nodup_append] at distinct
    intro s hs
    exact distinct.2.2 s.id (List.mem_map_of_mem hs) _ List.mem_cons_self
  · rw [hsplit, List.map_append, List.map_cons, List.nodup_append, List.nodup_cons] at distinct
    intro s hs same
    exact distinct.2.1.1 (same ▸ List.mem_map_of_mem hs)

theorem filter_id_eq (distinct : (rules.map Rule.id).Nodup) (hr : rules[n]? = some r) :
    rules.filter (fun s => s.id = r.id) = [r] := by
  obtain ⟨before, after, hrules, -, hbefore, hafter⟩ := split_of_distinct distinct hr
  have hb : before.filter (fun s => s.id = r.id) = [] := by simpa using hbefore
  have ha : after.filter (fun s => s.id = r.id) = [] := by simpa using hafter
  simp [hrules, hb, ha]

theorem filter_id_ne (distinct : (rules.map Rule.id).Nodup) (hr : rules[n]? = some r) :
    rules.filter (fun s => s.id ≠ r.id) = rules.eraseIdx n := by
  obtain ⟨before, after, hrules, herase, hbefore, hafter⟩ := split_of_distinct distinct hr
  have hb : before.filter (fun s => s.id ≠ r.id) = before := by simpa using hbefore
  have ha : after.filter (fun s => s.id ≠ r.id) = after := by simpa using hafter
  rw [herase]
  conv => lhs; rw [hrules]
  rw [List.filter_append, List.filter_cons, hb, ha]
  simp

end

end Rule

/-- The issues of one id in a text are those of the rule with that id. -/
theorem Issue.value_ofText_filter_id {rules : List Rule} {n : Nat} {r : Rule}
    (distinct : (rules.map Rule.id).Nodup) (hr : rules[n]? = some r) (file text : String) :
    (ofText rules file text).value.filter (fun i => i.id = r.id) = (r.issue? file text).toList := by
  calc (ofText rules file text).value.filter (fun i => i.id = r.id)
      = (rules.filter fun s => decide (s.id = r.id)).filterMap fun s => s.issue? file text := by
        rw [value_ofText, List.filter_filterMap, List.filterMap_filter]
        congr 1
        funext s
        exact Rule.issue?_filter_id (fun id => decide (id = r.id)) s file text
    _ = (r.issue? file text).toList := by
        rw [Rule.filter_id_eq distinct hr]
        cases h : r.issue? file text <;> simp [h]

theorem Catalog.nodup_ids : (Catalog.rules.map Rule.id).Nodup := by decide +kernel

theorem Catalog.value_ofText_filter_id {r : Rule} (hr : r ∈ Catalog.rules) (file text : String) :
    (Issue.ofText Catalog.rules file text).value.filter (fun i => i.id = r.id) =
      (r.issue? file text).toList := by
  obtain ⟨n, hn⟩ := List.mem_iff_getElem?.mp hr
  exact Issue.value_ofText_filter_id nodup_ids hn file text

/-- Filtering the issues of a file by their id is the same as filtering the rules. -/
theorem InputFile.contribution_filter_id (p : String → Bool) (rules : List Rule) (f : InputFile) :
    (f.contribution rules).filter (fun i => p i.id) =
      f.contribution (rules.filter fun r => p r.id) := by
  unfold contribution
  split_ifs
  · cases ht : f.text? with
    | none => simp [value_issues, ht]
    | some text =>
      simp only [value_issues, ht, Option.elim_some, List.filter_filterMap, List.filterMap_filter,
        Rule.issue?_filter_id]
  · rfl

def Issue.isRaisedBy (r : Rule) (i : Issue) : Bool := i.id = r.id && !i.isProjectLevel

theorem Issue.isRaisedBy_of_mem_contribution {rules : List Rule} {f : InputFile} {i : Issue}
    (h : i ∈ f.contribution rules) (r : Rule) : i.isRaisedBy r = decide (i.id = r.id) := by
  obtain ⟨accepted, text, -, s, -, hi⟩ := InputFile.mem_contribution.mp h
  simp [isRaisedBy, InputFile.not_isProjectLevel_of_issue? accepted hi]

theorem Issue.isRaisedBy_of_mem_shape {s : Shape} {i : Issue} (h : i ∈ s.issues) (r : Rule) :
    i.isRaisedBy r = false := by
  simp [isRaisedBy, (Shape.isProjectLevel_of_mem_issues h).1]

namespace Analysis

def without (r : Rule) (a : Analysis) : Analysis :=
  { a with issues := a.issues.filter fun i => !i.isRaisedBy r }

section

variable {rules : List Rule} (distinct : (rules.map Rule.id).Nodup) {n : Nat} {r : Rule}
  (hr : rules[n]? = some r)
include distinct hr

theorem contribution_eraseIdx (f : InputFile) :
    f.contribution (rules.eraseIdx n) = (f.contribution rules).filter fun i => !i.isRaisedBy r := by
  rw [← Rule.filter_id_ne distinct hr]
  calc f.contribution (rules.filter fun s => decide (s.id ≠ r.id))
      = (f.contribution rules).filter fun i => decide (i.id ≠ r.id) :=
        (InputFile.contribution_filter_id (fun id => decide (id ≠ r.id)) rules f).symm
    _ = _ := List.filter_congr fun i hi => by simp [Issue.isRaisedBy_of_mem_contribution hi]

theorem ofFiles_eraseIdx (files : List InputFile) :
    ofFiles (rules.eraseIdx n) files = (ofFiles rules files).without r := by
  -- What is said about the project has no rule to go with.
  have hshape : (Shape.ofFiles (files.filter InputFile.isAccepted)).issues.filter
      (fun i => !i.isRaisedBy r) = (Shape.ofFiles (files.filter InputFile.isAccepted)).issues := by
    apply List.filter_eq_self.mpr
    intro i hi
    simp [Issue.isRaisedBy_of_mem_shape hi]
  have hblocks : InputFile.contribution (rules.eraseIdx n) =
      fun f => (f.contribution rules).filter fun i => !i.isRaisedBy r := by
    funext f
    exact contribution_eraseIdx distinct hr f
  simp only [without, ofFiles, List.filter_append, List.filter_flatMap, hshape, hblocks]

theorem contribution_isRaisedBy {f : InputFile} {text : String} {verdict : Option String}
    (accepted : f.isAccepted) (ht : f.text? = some text) (hv : r.Verdict text verdict) :
    (f.contribution rules).filter (·.isRaisedBy r) =
      (verdict.map (r.issueWith f.name text)).toList := by
  calc (f.contribution rules).filter (·.isRaisedBy r)
      = (f.contribution rules).filter fun i => decide (i.id = r.id) :=
        List.filter_congr fun i hi => Issue.isRaisedBy_of_mem_contribution hi r
    _ = f.contribution (rules.filter fun s => decide (s.id = r.id)) :=
        InputFile.contribution_filter_id (fun id => decide (id = r.id)) rules f
    _ = f.contribution [r] := by rw [Rule.filter_id_eq distinct hr]
    _ = (verdict.map (r.issueWith f.name text)).toList := by
        rw [InputFile.contribution_of_text?_eq_some accepted ht]
        cases verdict <;> simp [hv.issue?_eq]

end

/-- Leaving a rule out takes away the issues that it raised and nothing else. In each file that can
be read it raises one issue if it comes to a message there and none if it does not. -/
theorem rule_isolated (rules : List Rule) (files : List InputFile) (n : Nat) (r : Rule)
    (distinct : (rules.map Rule.id).Nodup) (hr : rules[n]? = some r) :
    (ofFiles? (rules.eraseIdx n) files).value = (ofFiles? rules files).value.map (without r) ∧
      ∀ a, (ofFiles? rules files).value = some a →
        a.issues = (files.map (InputFile.contribution rules)).flatten ++ a.shape.issues ∧
        (∀ i ∈ a.shape.issues, i.isRaisedBy r = false) ∧
        ∀ f ∈ files, f.isAccepted → ∀ text, f.text? = some text →
          (∃ verdict, r.Verdict text verdict) ∧
          ∀ verdict, r.Verdict text verdict → (f.contribution rules).filter (·.isRaisedBy r) =
            (verdict.map (r.issueWith f.name text)).toList := by
  constructor
  · rw [value_ofFiles?, value_ofFiles?]
    split_ifs
    · rfl
    · rw [Option.map_some, ofFiles_eraseIdx distinct hr]
  · intro a ha
    have some_file : files ≠ [] := by
      rintro rfl
      simp [value_ofFiles?] at ha
    rw [value_ofFiles?_of_ne_nil rules some_file, Option.some_inj] at ha
    subst ha
    refine ⟨issues_eq_flatten rules files, fun i hi => Issue.isRaisedBy_of_mem_shape hi r, ?_⟩
    intro f _ accepted text ht
    exact ⟨r.exists_verdict text, fun verdict hv =>
      contribution_isRaisedBy distinct hr accepted ht hv⟩

/-- Next to a rule whose judge fails, the other one is heard as if it were alone. -/
theorem rule_isolated_undecided :
    let undecided : Rule := { Catalog.workProfile with
      id := "undecided"
      advice := .conditional fun _ _ => pure (.error (.notAVersion "x")) }
    let rules := [undecided, Catalog.workProfile]
    let file : InputFile := ⟨"A.kt", none, some "DevicePolicyManager".toUTF8⟩
    (rules.map Rule.id).Nodup ∧ rules[0]? = some undecided ∧
      (ofFiles? [Catalog.workProfile] [file]).value =
        (ofFiles? rules [file]).value.map (without undecided) ∧
      (file.contribution rules).filter (·.isRaisedBy undecided) = [] := by
  intro undecided rules file
  have distinct : (rules.map Rule.id).Nodup := by decide
  have hr : rules[0]? = some undecided := rfl
  obtain ⟨hvalue, hrun⟩ := rule_isolated rules [file] 0 undecided distinct hr
  refine ⟨distinct, hr, hvalue, ?_⟩
  have ht : file.text? = some "DevicePolicyManager" := by
    rw [InputFile.text?, Option.bind_some]
    exact Text.decode?_toUTF8 (by decide)
  obtain ⟨-, -, hfile⟩ := hrun _ (value_ofFiles?_of_ne_nil rules (List.cons_ne_nil _ _))
  obtain ⟨-, hverdict⟩ := hfile file List.mem_cons_self (by decide +kernel) _ ht
  have hfound : undecided.findAll "DevicePolicyManager" ≠ [] := by decide +kernel
  exact hverdict none (.failed _ _ hfound rfl rfl)

end Analysis

end MigrationAudit
