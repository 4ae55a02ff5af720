import MigrationAudit.Proofs.LatestScan
import MigrationAudit.Proofs.Growing
import MigrationAudit.Proofs.Origin

namespace MigrationAudit

section Merging

variable {α : Type} {x : α × Nat} {xs ys : List (α × Nat)}

def byPosition (x y : α × Nat) : Bool := x.2 ≤ y.2

theorem merge_cons_left (h : ∀ y ∈ ys, x.2 < y.2) :
    (x :: xs).merge ys byPosition = x :: xs.merge ys byPosition := by
  cases ys with
  | nil => rw [List.merge_right, List.merge_right]
  | cons y ys =>
    exact List.cons_merge_cons_pos _ _ _ (decide_eq_true (Nat.le_of_lt (h y List.mem_cons_self)))

theorem merge_cons_right (h : ∀ y ∈ ys, x.2 < y.2) :
    ys.merge (x :: xs) byPosition = x :: ys.merge xs byPosition := by
  cases ys with
  | nil => rw [List.nil_merge, List.nil_merge]
  | cons y ys =>
    have hy : ¬byPosition y x := by
      rw [byPosition, decide_eq_true_eq]
      exact Nat.not_le_of_lt (h y List.mem_cons_self)
    rw [List.cons_merge_cons, if_neg hy]

/-- Two parts of a list that have nothing in common are merged to what is in either. -/
theorem merge_filter {p q : α × Nat → Bool} (disjoint : ∀ x, p x → q x = false)
    (h : xs.Pairwise fun x y => x.2 < y.2) :
    (xs.filter p).merge (xs.filter q) byPosition = xs.filter fun x => p x || q x := by
  induction xs with
  | nil => exact List.nil_merge _
  | cons x xs ih =>
    obtain ⟨hfirst, hrest⟩ := List.pairwise_cons.mp h
    have hlater (r : α × Nat → Bool) : ∀ y ∈ xs.filter r, x.2 < y.2 :=
      fun y hy => hfirst y (List.mem_of_mem_filter hy)
    cases hp : p x with
    | true =>
      rw [List.filter_cons_of_pos hp, List.filter_cons_of_neg (by simp [disjoint x hp]),
        List.filter_cons_of_pos (by simp [hp]), merge_cons_left (hlater q), ih hrest]
    | false =>
      rw [List.filter_cons_of_neg (by simp [hp])]
      cases hq : q x with
      | true =>
        rw [List.filter_cons_of_pos hq, List.filter_cons_of_pos (by simp [hq]),
          merge_cons_right (hlater p), ih hrest]
      | false =>
        rw [List.filter_cons_of_neg (by simp [hq]), List.filter_cons_of_neg (by simp [hp, hq]),
          ih hrest]

end Merging

def Severity.placed (s : Severity) (issues : List Issue) : List (Issue × Nat) :=
  issues.zipIdx.filter fun x => x.1.severity = s

def Tally.of (t : Tally) : Severity → Nat
  | .critical => t.critical
  | .warning => t.warning
  | .info => t.info

/-- Two reports that may differ only in which issues they show. -/
def Report.SameNumbers (r r' : Report) : Prop :=
  r.issueCount = r'.issueCount ∧ r.analyzedFileCount = r'.analyzedFileCount ∧ r.tally = r'.tally ∧
    r.score = r'.score ∧ r.band = r'.band

/-- The views of an analysis fit together and fit its numbers. -/
structure Analysis.ViewsAgree (a : Analysis) : Prop where
  numbers : ∀ category : String, (a.report (View.parse category).value).SameNumbers (a.report .all)
  total : (a.report .all).issueCount = a.issues.length ∧
    a.tally.critical + a.tally.warning + a.tally.info = a.issues.length
  shown : ∀ s : Severity, (a.report (View.parse s.name).value).issues =
    (s.placed a.issues).map Prod.fst
  at_position : ∀ s : Severity, ∀ x ∈ s.placed a.issues, a.issues[x.2]? = some x.1
  ascending : ∀ s : Severity, (s.placed a.issues).Pairwise fun x y => x.2 < y.2
  once : ∀ n i, a.issues[n]? = some i → ∃! s : Severity, (i, n) ∈ s.placed a.issues
  counted : ∀ s : Severity, (a.report (View.parse s.name).value).issues.length = a.tally.of s
  merged : (((Severity.critical.placed a.issues).merge (Severity.warning.placed a.issues)
    byPosition).merge (Severity.info.placed a.issues) byPosition).map Prod.fst = a.issues
  full : ∀ category : String, (∀ s : Severity, category ≠ s.name) →
    (a.report (View.parse category).value).issues = a.issues
  /-- No view that was taken before changes what is shown. -/
  full_later : ∀ (before : Session) (steps : List Session.Step), before.current = some a →
    (∀ files, Session.Step.scan files ∈ steps → files = []) →
    ((before.run steps).value.1.step (.select "all")).value.2 = .issues a.issues ∧
      ((before.run steps).value.1.step (.report "all")).value.2 =
        .analysis (some (a, a.report .all))

theorem Severity.map_placed (s : Severity) (issues : List Issue) :
    (s.placed issues).map Prod.fst = (View.only s).select issues := by
  rw [View.select_only, placed]
  conv => rhs; rw [← List.zipIdx_map_fst 0 issues, List.filter_map]
  rfl

theorem Severity.mem_placed {s : Severity} {issues : List Issue} {i : Issue} {n : Nat} :
    (i, n) ∈ s.placed issues ↔ issues[n]? = some i ∧ i.severity = s := by
  rw [placed, List.mem_filter, List.mem_zipIdx_iff_getElem?, decide_eq_true_eq]

theorem Severity.pairwise_placed (s : Severity) (issues : List Issue) :
    (s.placed issues).Pairwise fun x y => x.2 < y.2 :=
  (Origin.pairwise_snd_zipIdx issues).filter _

theorem Tally.of_ofIssues (issues : List Issue) (s : Severity) :
    (ofIssues issues).of s = ((View.only s).select issues).length := by
  rw [View.select_only, ← List.countP_eq_length_filter]
  cases s <;> rfl

/-- The three views, merged by position, are the full list. -/
theorem merge_placed (issues : List Issue) :
    ((Severity.critical.placed issues).merge (Severity.warning.placed issues) byPosition).merge
      (Severity.info.placed issues) byPosition = issues.zipIdx := by
  have hordered := Origin.pairwise_snd_zipIdx issues
  unfold Severity.placed
  rw [merge_filter (by simp +contextual) hordered, merge_filter ?_ hordered, List.filter_eq_self]
  · intro x _
    cases x.1.severity <;> rfl
  · intro x hx
    cases h : x.1.severity <;> simp_all

namespace Analysis

/-- In every analysis each issue is in one view, and each view is as long as its count says. -/
theorem views_agree (a : Analysis) : a.ViewsAgree where
  numbers _ := ⟨rfl, rfl, rfl, rfl, rfl⟩
  total := ⟨rfl, Tally.ofIssues_total a.issues⟩
  shown s := by
    rw [View.value_parse_name, Severity.map_placed]
    rfl
  at_position s x hx := (Severity.mem_placed.mp hx).1
  ascending s := s.pairwise_placed a.issues
  once n i hi :=
    ⟨i.severity, Severity.mem_placed.mpr ⟨hi, rfl⟩, fun _ hs => (Severity.mem_placed.mp hs).2.symm⟩
  counted s := by
    rw [View.value_parse_name, tally, Tally.of_ofIssues]
    rfl
  merged := by rw [merge_placed, List.zipIdx_map_fst]
  full category h := by
    rw [View.value_parse_of_ne_name h]
    exact View.select_all a.issues
  full_later before steps hbefore hsteps := by
    have hlater : (before.run steps).value.1.current = some a := by
      rw [Session.current_run, Session.lastScanned?_eq_none_iff.mpr hsteps, hbefore]
      rfl
    have hall : (View.parse "all").value = .all :=
      View.value_parse_of_ne_name fun s => by cases s <;> decide
    generalize (before.run steps).value.1 = session at hlater
    constructor
    · rw [Session.step, Logged.value_bind, Session.value_select, hall, View.select_all,
        Session.issues, hlater]
      rfl
    · rw [Session.step, Logged.value_bind, hall, hlater]
      rfl

end Analysis

end MigrationAudit
