import MigrationAudit.Proofs.Declarations
import MigrationAudit.Proofs.RuleIsolation

namespace MigrationAudit

namespace Match

def level? (text : List Char) (m : Match) : Option Nat :=
  (m.group? 1 <|> m.group? 2).bind fun span => Text.natural? (span.slice text)

end Match

namespace Catalog

/-- A number too large for a version is no lower than the target. -/
theorem any_version? (digits : List Char) :
    (version? digits).any (· < targetLevel) = (Text.natural? digits).any (· < targetLevel) := by
  rw [version?]
  cases Text.natural? digits with
  | none => rfl
  | some level =>
    by_cases h : level < UInt32.size
    · simp [h]
    · have htarget : ¬level < targetLevel := by
        have : targetLevel < UInt32.size := by decide
        omega
      simp [h, htarget]

/-- If every match has a number, there is an answer. -/
theorem value_anyOutdated {text : List Char} {found : List Match}
    (h : ∀ m ∈ found, (m.group? 1 <|> m.group? 2).isSome) :
    (anyOutdated text found).value =
      .ok (found.any fun m => (m.level? text).any (· < targetLevel)) := by
  induction found with
  | nil => rfl
  | cons m rest ih =>
    obtain ⟨span, hspan⟩ := Option.isSome_iff_exists.mp (h m List.mem_cons_self)
    have hrest := ih fun m' hm' => h m' (List.mem_cons_of_mem m hm')
    have hlevel : (m.level? text).any (· < targetLevel) =
        (version? (span.slice text)).any (· < targetLevel) := by
      rw [any_version?, Match.level?, hspan, Option.bind_some]
    rw [anyOutdated, hspan, List.any_cons, hlevel]
    cases hversion : version? (span.slice text) with
    | none => simp [hversion, hrest, Except.map]
    | some version => simp [hversion, hrest, Except.map]

end Catalog

namespace Declaration

open Pattern

variable {n : Nat} {text : List Char} {m : Match}

def found (d : Declaration text) (n : Nat) : Match := ⟨⟨n, n + d.length⟩, (d.progress n).groups⟩

theorem matchAt?_targetSdk :
    Catalog.targetSdk.regex.pattern.matchAt? n text = some m ↔
      ∃ d : Declaration text, m = d.found n := by
  rw [matchAt?, Option.map_eq_some_iff]
  constructor
  · rintro ⟨s, hs, rfl⟩
    obtain ⟨d, rfl⟩ := runAt_targetSdk.mp hs
    exact ⟨d, rfl⟩
  · rintro ⟨d, rfl⟩
    exact ⟨_, d.runAt_eq n, rfl⟩

theorem group?_found (d : Declaration text) (n : Nat) :
    ((d.found n).group? 1 <|> (d.found n).group? 2) = some (d.span n) := by
  rw [found, progress]
  cases d.form <;> rfl

theorem level?_found (d : Declaration (text.drop n)) : (d.found n).level? text = some d.level := by
  have hslice : (d.span n).slice text = d.digits := by
    rw [Span.slice, span, length, ← List.drop_drop, Nat.add_sub_add_left, Nat.add_sub_cancel_left]
    conv => lhs; arg 2; arg 2; rw [d.text_eq]
    rw [List.drop_left, List.take_left]
  rw [Match.level?, group?_found, Option.bind_some, hslice, natural?_digits]

/-- The rule finds the declarations and nothing else. -/
theorem mem_findAll_targetSdk {text : String} :
    m ∈ Catalog.targetSdk.findAll text ↔
      ∃ n, ∃ d : Declaration (text.toList.drop n), m = d.found n := by
  rw [Rule.findAll, Regex.findAll, findAll_eq apart_targetSdk, mem_matchesAt]
  constructor
  · rintro ⟨n, -, h⟩
    rw [Nat.zero_add] at h
    exact ⟨n, matchAt?_targetSdk.mp h⟩
  · rintro ⟨n, d, rfl⟩
    have hle : n ≤ text.toList.length := by
      have hpos := d.length_pos
      have hlength := d.length_le
      rw [List.length_drop] at hlength
      omega
    refine ⟨n, hle, ?_⟩
    rw [Nat.zero_add]
    exact matchAt?_targetSdk.mpr ⟨d, rfl⟩

end Declaration

def DeclaresBelow (level : Nat) (text : List Char) : Prop :=
  ∃ n, ∃ d : Declaration (text.drop n), d.level < level

namespace Catalog

def findsOutdated (text : String) : Bool :=
  (targetSdk.findAll text).any fun m => (m.level? text.toList).any (· < targetLevel)

theorem findsOutdated_iff {text : String} :
    findsOutdated text ↔ DeclaresBelow targetLevel text.toList := by
  rw [findsOutdated, List.any_eq_true]
  constructor
  · rintro ⟨m, hm, hlevel⟩
    obtain ⟨n, d, rfl⟩ := Declaration.mem_findAll_targetSdk.mp hm
    rw [d.level?_found] at hlevel
    exact ⟨n, d, of_decide_eq_true hlevel⟩
  · rintro ⟨n, d, hlevel⟩
    refine ⟨d.found n, Declaration.mem_findAll_targetSdk.mpr ⟨n, d, rfl⟩, ?_⟩
    rw [d.level?_found]
    exact decide_eq_true hlevel

/-- The judge comes to an answer about every text. -/
theorem value_judgeTarget (text : String) : ∃ words, words ≠ "" ∧
    (judgeTarget text (targetSdk.findAll text)).value =
      .ok (if findsOutdated text then some words else none) := by
  have hnumbers : ∀ m ∈ targetSdk.findAll text, (m.group? 1 <|> m.group? 2).isSome := by
    intro m hm
    obtain ⟨n, d, rfl⟩ := Declaration.mem_findAll_targetSdk.mp hm
    rw [d.group?_found]
    rfl
  refine ⟨s!"Consider updating targetSdkVersion to {targetLevel} for Android 15 compatibility",
    by decide +kernel, ?_⟩
  rw [judgeTarget, Logged.value_bind, value_anyOutdated hnumbers]
  rfl

theorem issue?_targetSdk (file text : String) : ∃ words,
    targetSdk.issue? file text =
      if findsOutdated text then some (targetSdk.issueWith file text words) else none := by
  obtain ⟨words, hwords, hvalue⟩ := value_judgeTarget text
  refine ⟨words, ?_⟩
  have hverdict : targetSdk.Verdict text (if findsOutdated text then some words else none) := by
    by_cases hfound : targetSdk.findAll text = []
    · have hnone : findsOutdated text = false := by
        rw [findsOutdated, hfound]
        rfl
      rw [hnone]
      exact .unmatched hfound
    · split_ifs at hvalue ⊢
      · exact .advised judgeTarget words hfound rfl hvalue hwords
      · exact .declined judgeTarget hfound rfl hvalue
  rw [hverdict.issue?_eq]
  split_ifs <;> rfl

/-- A text declares a level that is out of date if and only if the rule raises its one issue
there. -/
theorem outdated_target_reported (file text : String) :
    ∃ starts : List Nat, starts.Pairwise (· < ·) ∧
      (∀ n, n ∈ starts ↔ Nonempty (Declaration (text.toList.drop n))) ∧
      (∀ n, Subsingleton (Declaration (text.toList.drop n))) ∧
      (DeclaresBelow 35 text.toList →
        ∃ i, (Issue.ofText rules file text).value.filter (fun i => i.id = "target_sdk_35") = [i] ∧
          i.file = file ∧ i.occurrences = starts.length) ∧
      (¬DeclaresBelow 35 text.toList →
        (Issue.ofText rules file text).value.filter (fun i => i.id = "target_sdk_35") = []) ∧
      ∃ message, (judgeTarget text (targetSdk.findAll text)).value = .ok message := by
  have hissues : (Issue.ofText rules file text).value.filter (fun i => i.id = "target_sdk_35") =
      (targetSdk.issue? file text).toList :=
    Issue.value_ofText_filter_id (n := 0) (r := targetSdk) (by decide) rfl file text
  obtain ⟨words, hissue⟩ := issue?_targetSdk file text
  refine ⟨(targetSdk.findAll text).map fun m => m.whole.start, ?_, ?_, fun n =>
    inferInstance, ?_, ?_, ?_⟩
  · rw [List.pairwise_map, Rule.findAll, Regex.findAll,
      Pattern.findAll_eq Declaration.apart_targetSdk]
    exact Pattern.pairwise_matchesAt ..
  · intro n
    rw [List.mem_map]
    constructor
    · rintro ⟨m, hm, rfl⟩
      obtain ⟨n, d, rfl⟩ := Declaration.mem_findAll_targetSdk.mp hm
      exact ⟨d⟩
    · rintro ⟨d⟩
      exact ⟨d.found n, Declaration.mem_findAll_targetSdk.mpr ⟨n, d, rfl⟩, rfl⟩
  · intro h
    rw [hissues, hissue, if_pos (findsOutdated_iff.mpr h)]
    exact ⟨_, rfl, rfl, (List.length_map _).symm⟩
  · intro h
    rw [hissues, hissue, if_neg (mt findsOutdated_iff.mp h)]
    rfl
  · obtain ⟨words, -, hvalue⟩ := value_judgeTarget text
    exact ⟨_, hvalue⟩

end Catalog

end MigrationAudit
