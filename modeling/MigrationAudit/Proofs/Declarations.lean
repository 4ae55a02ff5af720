import MigrationAudit.Catalog
import MigrationAudit.Proofs.Outcomes
import MigrationAudit.Proofs.Scanning
import Mathlib.Data.Nat.Digits.Defs
import Mathlib.Tactic.IntervalCases

namespace MigrationAudit

open Text (IsRun)

inductive Form where
  | spaced
  | assigned
  deriving DecidableEq

namespace Form

def group : Form → Nat
  | spaced => 1
  | assigned => 2

def IsLead : Form → List Char → Prop
  | spaced, lead => ∃ blanks, lead = "targetSdkVersion".toList ++ blanks ∧ blanks ≠ [] ∧
      ∀ c ∈ blanks, Text.isBlank c
  | assigned, lead => ∃ left right, lead = "targetSdk".toList ++ (left ++ '=' :: right) ∧
      (∀ c ∈ left, Text.isBlank c) ∧ ∀ c ∈ right, Text.isBlank c

end Form

/-- A declaration of a target level at the head of a text. Its number goes on to the last digit. -/
@[ext]
structure Declaration (text : List Char) where
  form : Form
  lead : List Char
  digits : List Char
  after : List Char
  text_eq : text = lead ++ (digits ++ after)
  isLead : form.IsLead lead
  digits_ne_nil : digits ≠ []
  isRun : IsRun Char.isDigit digits after

namespace Declaration

variable {text : List Char}

def level (d : Declaration text) : Nat :=
  Nat.ofDigits 10 (d.digits.reverse.map fun c => c.toNat - '0'.toNat)

def length (d : Declaration text) : Nat := d.lead.length + d.digits.length

/-- Where the number stands if the text begins at position `n`. -/
def span (d : Declaration text) (n : Nat) : Span := ⟨n + d.lead.length, n + d.length⟩

def progress (d : Declaration text) (n : Nat) : Progress :=
  ⟨n + d.length, d.after, [none, none].set (d.form.group - 1) (some (d.span n)), []⟩

theorem progress_eq (d : Declaration text) {n m : Nat} (h : n + d.lead.length = m) :
    d.progress n = ⟨m + d.digits.length, d.after,
      [none, none].set (d.form.group - 1) (some ⟨m, m + d.digits.length⟩), []⟩ := by
  rw [progress, span, length, ← Nat.add_assoc, h]

theorem natural?_digits (d : Declaration text) : Text.natural? d.digits = some d.level := by
  have hdigits : d.digits.all Char.isDigit := List.all_eq_true.mpr d.isRun.holds
  rw [Text.natural?, if_pos ⟨d.digits_ne_nil, hdigits⟩, level, Nat.ofDigits_eq_foldr,
    List.foldr_map, List.foldr_reverse]
  simp only [Nat.cast_id, Nat.add_comm]

end Declaration

namespace Pattern

variable {n i : Nat} {text : List Char} {groups : List (Option Span)} {s : Progress}

def digit : Pattern := one ⟨[.range '0' '9'], false⟩

theorem holds_blank : (⟨[.blank], false⟩ : CharSet).holds = Text.isBlank := by
  funext c
  simp [CharSet.holds, CharItem.holds]

theorem holds_digit : (⟨[.range '0' '9'], false⟩ : CharSet).holds = Char.isDigit := by
  funext c
  simp [CharSet.holds, CharItem.holds, Char.isDigit, Char.le_def]

theorem isBlank_eq_false_of_isDigit {c : Char} (h : c.isDigit) : Text.isBlank c = false := by
  have h' : 48 ≤ c.toNat ∧ c.toNat ≤ 57 := by simpa [Char.isDigit, UInt32.le_iff_toNat_le] using h
  simp only [Text.isBlank, Text.blankRanges, List.any_cons, List.any_nil, Bool.or_false]
  simp
  omega

/-- A group that takes a number takes all its digits. -/
theorem first_number : (group i (loop none true digit)).first ⟨n, text, groups, []⟩ = some s ↔
    ∃ digits after, text = digits ++ after ∧ IsRun Char.isDigit digits after ∧ digits ≠ [] ∧
      s = ⟨n + digits.length, after, groups.set (i - 1) (some ⟨n, n + digits.length⟩), []⟩ := by
  rw [first_group, digit]
  simp only [first_loop_one, holds_digit]
  constructor
  · rintro ⟨_, ⟨digits, after, htext, hrun, hdigits, rfl⟩, rfl⟩
    exact ⟨digits, after, htext, hrun, hdigits, rfl⟩
  · rintro ⟨digits, after, htext, hrun, hdigits, rfl⟩
    exact ⟨_, ⟨digits, after, htext, hrun, hdigits, rfl⟩, rfl⟩

theorem avoids_number :
    (group i (loop none true digit)).Avoids (⟨[.blank], false⟩ : CharSet).holds := by
  refine ((avoids_one fun c hc => ?_).loop none true).group i
  rw [holds_blank] at hc
  rw [holds_digit]
  by_contra h
  rw [isBlank_eq_false_of_isDigit (by simpa using h)] at hc
  cases hc

theorem avoids_sign (q : Pattern) :
    (seq (char '=') q).Avoids (⟨[.blank], false⟩ : CharSet).holds := by
  refine (avoids_one fun c hc => ?_).seq q
  rw [holds_blank] at hc
  by_contra h
  rw [Bool.not_eq_false, holds_char] at h
  rw [h] at hc
  revert hc
  decide

end Pattern

namespace Form

open Pattern

variable {n : Nat} {text : List Char} {s : Progress}

def pattern : Form → Pattern
  | spaced => ofList ("targetSdkVersion".toList.map char ++
      [loop none true blank, Pattern.group 1 (loop none true digit)])
  | assigned => ofList ("targetSdk".toList.map char ++
      [star none true blank, char '=', star none true blank,
        Pattern.group 2 (loop none true digit)])

theorem pattern_targetSdk :
    Catalog.targetSdk.regex.pattern = alt spaced.pattern assigned.pattern := by
  decide +kernel

/-- Before a number, the blanks end. -/
theorem ends_of_digits {digits after : List Char} (hdigits : digits ≠ [])
    (h : ∀ c ∈ digits, c.isDigit) : (digits ++ after).head?.any Text.isBlank = false := by
  cases digits with
  | nil => exact absurd rfl hdigits
  | cons c digits => exact isBlank_eq_false_of_isDigit (h c List.mem_cons_self)

theorem first_spaced : spaced.pattern.first ⟨n, text, [none, none], []⟩ = some s ↔
    ∃ d : Declaration text, d.form = spaced ∧ s = d.progress n := by
  rw [pattern, first_word]
  simp only [ofList, blank, first_seq_loop_one avoids_number, holds_blank, first_number]
  constructor
  · rintro ⟨_, rfl, blanks, _, rfl, hblanks, hne, digits, after, rfl, hrun, hdigits, rfl⟩
    refine ⟨⟨spaced, "targetSdkVersion".toList ++ blanks, digits, after, by rw [List.append_assoc],
      ⟨blanks, rfl, hne, hblanks.holds⟩, hdigits, hrun⟩, rfl, ?_⟩
    symm
    exact Declaration.progress_eq _ (by rw [List.length_append, Nat.add_assoc])
  · rintro ⟨⟨form, lead, digits, after, rfl, hlead, hdigits, hrun⟩, rfl, rfl⟩
    obtain ⟨blanks, rfl, hne, hblanks⟩ := hlead
    refine ⟨blanks ++ (digits ++ after), List.append_assoc .., blanks, digits ++ after, rfl,
      ⟨hblanks, ends_of_digits hdigits hrun.holds⟩, hne, digits, after, rfl, hrun, hdigits, ?_⟩
    exact Declaration.progress_eq _ (by rw [List.length_append, Nat.add_assoc])

theorem length_assigned (n : Nat) (left right : List Char) :
    n + ("targetSdk".toList ++ (left ++ '=' :: right)).length =
      n + "targetSdk".toList.length + left.length + 1 + right.length := by
  simp only [List.length_append, List.length_cons]
  omega

theorem first_assigned : assigned.pattern.first ⟨n, text, [none, none], []⟩ = some s ↔
    ∃ d : Declaration text, d.form = assigned ∧ s = d.progress n := by
  rw [pattern, first_word]
  simp only [ofList, blank, first_seq_star (avoids_sign _), first_seq_star avoids_number,
    first_seq_char, holds_blank, first_number]
  constructor
  · rintro ⟨_, rfl, left, _, rfl, hleft, _, rfl, right, _, rfl, hright, digits, after, rfl,
      hrun, hdigits, rfl⟩
    refine ⟨⟨assigned, "targetSdk".toList ++ (left ++ '=' :: right), digits, after,
      by simp only [List.append_assoc, List.cons_append],
        ⟨left, right, rfl, hleft.holds, hright.holds⟩,
      hdigits, hrun⟩, rfl, ?_⟩
    symm
    exact Declaration.progress_eq _ (length_assigned n left right)
  · rintro ⟨⟨form, lead, digits, after, rfl, hlead, hdigits, hrun⟩, rfl, rfl⟩
    obtain ⟨left, right, rfl, hleft, hright⟩ := hlead
    refine ⟨left ++ '=' :: (right ++ (digits ++ after)),
      by simp only [List.append_assoc, List.cons_append], left, _, rfl, ⟨hleft, rfl⟩, _, rfl, right,
      digits ++ after, rfl, ⟨hright, ends_of_digits hdigits hrun.holds⟩, digits, after, rfl, hrun,
      hdigits, ?_⟩
    exact Declaration.progress_eq _ (length_assigned n left right)

/-- All leads begin with the same word and hold no further letter that begins it. -/
theorem IsLead.exists_tail {form : Form} {lead : List Char} (h : form.IsLead lead) :
    ∃ tail, lead = "targetSdk".toList ++ tail ∧ 't' ∉ tail := by
  have hblank (blanks : List Char) (hblanks : ∀ c ∈ blanks, Text.isBlank c) : 't' ∉ blanks := by
    intro ht
    exact absurd (hblanks 't' ht) (by decide)
  cases form with
  | spaced =>
    obtain ⟨blanks, rfl, -, hblanks⟩ := h
    refine ⟨"Version".toList ++ blanks, rfl, ?_⟩
    rw [List.mem_append, not_or]
    exact ⟨by decide, hblank blanks hblanks⟩
  | assigned =>
    obtain ⟨left, right, rfl, hleft, hright⟩ := h
    refine ⟨left ++ '=' :: right, rfl, ?_⟩
    rw [List.mem_append, List.mem_cons, not_or, not_or]
    exact ⟨hblank left hleft, by decide, hblank right hright⟩

end Form

namespace Declaration

open Pattern

variable {n k : Nat} {text : List Char} {s : Progress}

theorem length_pos (d : Declaration text) : 0 < d.length :=
  Nat.add_pos_right _ (List.length_pos_iff.mpr d.digits_ne_nil)

theorem length_le (d : Declaration text) : d.length ≤ text.length := by
  conv => rhs; rw [d.text_eq]
  simp only [length, List.length_append]
  omega

theorem drop_length (d : Declaration text) : text.drop d.length = d.after := by
  conv => lhs; arg 2; rw [d.text_eq, ← List.append_assoc]
  exact List.drop_left' List.length_append

/-- A text begins with a declaration of one form only. -/
theorem not_both (d d' : Declaration text) (h : d.form = .spaced) : d'.form ≠ .assigned := by
  intro h'
  have hlead := d.isLead
  have hlead' := d'.isLead
  rw [h] at hlead
  rw [h'] at hlead'
  obtain ⟨blanks, hblanks, -, -⟩ := hlead
  obtain ⟨left, right, hsign, hleft, -⟩ := hlead'
  have htext := d.text_eq.symm.trans d'.text_eq
  rw [hblanks, hsign] at htext
  have hnext : "Version".toList ++ (blanks ++ (d.digits ++ d.after)) =
      left ++ ('=' :: (right ++ (d'.digits ++ d'.after))) := by simpa using htext
  have hhead : some 'V' = (left ++ ('=' :: (right ++ (d'.digits ++ d'.after)))).head? := by
    rw [← hnext]
    rfl
  cases left with
  | nil => exact absurd (Option.some.inj hhead) (by decide)
  | cons c left =>
    obtain rfl : 'V' = c := Option.some.inj hhead
    exact absurd (hleft 'V' List.mem_cons_self) (by decide)

/-- The pattern of the rule matches the declarations and nothing else. -/
theorem runAt_targetSdk :
    Catalog.targetSdk.regex.pattern.runAt n text = some s ↔
      ∃ d : Declaration text, s = d.progress n := by
  rw [Form.pattern_targetSdk, runAt_eq_first]
  change (alt _ _).first ⟨n, text, [none, none], []⟩ = _ ↔ _
  rw [first_alt, Form.first_spaced, Form.first_assigned]
  constructor
  · rintro (⟨d, -, h⟩ | ⟨-, d, -, h⟩) <;> exact ⟨d, h⟩
  · rintro ⟨d, rfl⟩
    cases hform : d.form with
    | spaced => exact .inl ⟨d, hform, rfl⟩
    | assigned =>
      refine .inr ⟨?_, d, hform, rfl⟩
      by_contra hsome
      obtain ⟨s, hs⟩ := Option.ne_none_iff_exists'.mp hsome
      obtain ⟨d', hd', -⟩ := Form.first_spaced.mp hs
      exact not_both d' d hd' hform

theorem runAt_eq (d : Declaration text) (n : Nat) :
    Catalog.targetSdk.regex.pattern.runAt n text = some (d.progress n) :=
      runAt_targetSdk.mpr ⟨d, rfl⟩

/-- The first word of a declaration does not come again inside itself. -/
theorem firstWord_once (hpos : 0 < k) (hk : k < 9) (after after' : List Char) :
    ("targetSdk".toList ++ after).drop k ≠ "targetSdk".toList ++ after' := by
  interval_cases k <;> simp

theorem drop_append_ne_cons {c : Char} {part : List Char} (hc : c ∉ part) (hk : k < part.length)
    (after after' : List Char) : (part ++ after).drop k ≠ c :: after' := by
  intro h
  rw [List.drop_append_of_le_length hk.le, List.drop_eq_getElem_cons hk] at h
  obtain ⟨rfl, -⟩ := List.cons.inj h
  exact hc (List.getElem_mem hk)

/-- After their first word, declarations hold no letter that begins it. -/
theorem exists_tail (d : Declaration text) : ∃ tail, d.lead = "targetSdk".toList ++ tail ∧
    text = "targetSdk".toList ++ ((tail ++ d.digits) ++ d.after) ∧ 't' ∉ tail ++ d.digits := by
  obtain ⟨tail, htail, hfree⟩ := d.isLead.exists_tail
  refine ⟨tail, htail, ?_, ?_⟩
  · conv => lhs; rw [d.text_eq, htail]
    simp only [List.append_assoc]
  · rw [List.mem_append, not_or]
    exact ⟨hfree, fun ht => absurd (d.isRun.holds 't' ht) (by decide)⟩

/-- No declaration begins inside another one. -/
theorem not_inside (d : Declaration text) (hpos : 0 < k) (hk : k < d.length) :
    IsEmpty (Declaration (text.drop k)) := by
  refine ⟨fun d' => ?_⟩
  obtain ⟨tail, hlead, htext, hfree⟩ := d.exists_tail
  obtain ⟨after', hdrop⟩ : ∃ after', text.drop k = "targetSdk".toList ++ after' := by
    obtain ⟨tail', -, hdrop, -⟩ := d'.exists_tail
    exact ⟨_, hdrop⟩
  rw [htext] at hdrop
  by_cases hk9 : k < 9
  · exact firstWord_once hpos hk9 _ _ hdrop
  · have hlength : k - 9 < (tail ++ d.digits).length := by
      have hword : "targetSdk".toList.length = 9 := rfl
      rw [length, hlead, List.length_append, hword] at hk
      rw [List.length_append]
      omega
    rw [List.drop_append, List.drop_eq_nil_of_le (Nat.le_of_not_lt hk9), List.nil_append] at hdrop
    exact drop_append_ne_cons hfree hlength _ _ hdrop

/-- The declarations of a text keep apart. -/
theorem apart_targetSdk : Catalog.targetSdk.regex.pattern.Apart := by
  intro n text s hrun
  obtain ⟨d, rfl⟩ := runAt_targetSdk.mp hrun
  refine ⟨d.length, d.length_pos, d.length_le, rfl, d.drop_length.symm, fun i hi => ?_⟩
  rw [List.drop_drop]
  by_contra hsome
  obtain ⟨s', hs'⟩ := Option.ne_none_iff_exists'.mp hsome
  obtain ⟨d', -⟩ := runAt_targetSdk.mp hs'
  exact (d.not_inside (Nat.add_pos_left Nat.one_pos i) (by omega)).false d'

theorem progress_inj {d d' : Declaration text} (h : d.progress n = d'.progress n) : d = d' := by
  rw [progress, progress, Progress.mk.injEq] at h
  obtain ⟨-, -, hgroups, -⟩ := h
  have hform : d.form = d'.form ∧ d.span n = d'.span n := by
    cases hd : d.form <;> cases hd' : d'.form <;> simp [hd, hd', Form.group] at hgroups
    · exact ⟨rfl, hgroups⟩
    · exact ⟨rfl, hgroups⟩
  obtain ⟨hform, hspan⟩ := hform
  rw [span, span, Span.mk.injEq, Nat.add_left_cancel_iff, Nat.add_left_cancel_iff, length,
    length] at hspan
  obtain ⟨hlead, hrest⟩ := List.append_inj (d.text_eq.symm.trans d'.text_eq) hspan.1
  obtain ⟨hdigits, hafter⟩ := List.append_inj hrest (by omega)
  exact Declaration.ext hform hlead hdigits hafter

/-- A text begins with one declaration at most. -/
instance : Subsingleton (Declaration text) := by
  refine ⟨fun d d' => progress_inj (n := 0) ?_⟩
  have hrun := d.runAt_eq 0
  rw [d'.runAt_eq 0] at hrun
  exact (Option.some.inj hrun).symm

end Declaration

end MigrationAudit
