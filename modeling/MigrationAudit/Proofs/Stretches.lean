import MigrationAudit.Proofs.Words
import Mathlib.Algebra.GroupWithZero.Nat

namespace MigrationAudit

namespace Text

variable {line tail : List Char}

def EndsLine (tail : List Char) : Prop := ∀ c ∈ tail.head?, c = '\n'

theorem prefix_append_iff {word : List Char} (hword : '\n' ∉ word) (htail : EndsLine tail) :
    word <+: line ++ tail ↔ word <+: line := by
  induction word generalizing line with
  | nil => simp
  | cons c word ih =>
    rw [List.mem_cons, not_or] at hword
    obtain ⟨hc, hword⟩ := hword
    cases line with
    | nil =>
      constructor
      · rintro ⟨after, rfl⟩
        exact absurd (htail c rfl).symm hc
      · intro h
        exact absurd (List.prefix_nil.mp h) (List.cons_ne_nil c word)
    | cons d line => rw [List.cons_append, List.cons_prefix_cons, List.cons_prefix_cons, ih hword]

theorem takeWhile_line (hline : '\n' ∉ line) (htail : EndsLine tail) :
    (line ++ tail).takeWhile (· ≠ '\n') = line := by
  refine (isRun_iff.mp ⟨rfl, fun c hc => ?_, ?_⟩).1.symm
  · exact decide_eq_true fun h => hline (h ▸ hc)
  · cases hhead : tail.head? with
    | none => rfl
    | some c => simp [htail c hhead]

/-- Every text begins with a line. -/
theorem exists_line (text : List Char) :
    ∃ line tail, text = line ++ tail ∧ '\n' ∉ line ∧ EndsLine tail := by
  refine ⟨text.takeWhile (· ≠ '\n'), text.dropWhile (· ≠ '\n'),
    List.takeWhile_append_dropWhile.symm, fun h => by simpa using List.mem_takeWhile_imp h,
    fun c hc => ?_⟩
  have hhead := List.head?_dropWhile_not (· ≠ '\n') text
  rw [hc] at hhead
  simpa using hhead

end Text

theorem head?_flatMap_reverse {α β γ : Type} (f : α → β) (P : β → Prop) [DecidablePred P]
    (g : β → γ) (l : List α) :
    ((l.map f).reverse.flatMap fun b => if P b then [g b] else []).head? =
      (l.filter fun a => P (f a)).getLast?.map fun a => g (f a) := by
  induction l using List.reverseRecOn with
  | nil => rfl
  | append_singleton l a ih =>
    rw [List.map_append, List.reverse_append, List.filter_append]
    by_cases ha : P (f a)
    · simp [ha]
    · simpa [ha] using ih

namespace Pattern

theorem holds_anyChar : (⟨[.range '\n' '\n'], true⟩ : CharSet).holds = (· ≠ '\n') := by
  funext c
  have hfeed : (⟨[.range '\n' '\n'], false⟩ : CharSet).holds c = decide (c = '\n') := by
    rw [Bool.eq_iff_iff, holds_char, decide_eq_true_iff]
  simp only [CharSet.holds, Bool.bne_false, Bool.bne_true] at hfeed ⊢
  rw [hfeed, decide_not]

theorem first_alt_eq {p q : Pattern} {s : Progress} :
    (alt p q).first s = (p.first s).or (q.first s) := by
  rw [first, outcomes, List.head?_append]
  rfl

end Pattern

/-- What is looked for in a line: the stretch from an opening word to the last closing word after
it, or a single word. -/
structure Stretch where
  opening : String
  closing : String
  single : String
  on_line : ∀ w ∈ [opening, closing, single], '\n' ∉ w.toList ∧ w ≠ ""
  closing_outside : Text.Clear opening closing
  opening_outside : Text.Clear single opening
  single_outside : Text.Clear single single
  differ : ¬opening.toList <+: single.toList ∧ ¬single.toList <+: opening.toList

namespace Stretch

open Pattern
open Text (EndsLine starts mem_starts_singleton prefix_append_iff)

variable (w : Stretch)

/-- How often something is found in a line. Where the last closing word comes after the first
opening word all that lies between counts once. -/
def count (line : List Char) : Nat :=
  let singles := starts [w.single] line
  match (starts [w.opening] line).head?, (starts [w.closing] line).getLast? with
  | some r, some b =>
    if r < b then
      (singles.filter (· < r)).length + 1 +
        (singles.filter (b + w.closing.toList.length ≤ ·)).length
    else singles.length
  | _, _ => singles.length

def total (text : List Char) : Nat := ((text.splitOn '\n').map w.count).sum

def pattern : Pattern :=
  ofList (w.opening.toList.map char ++ (star none true anyChar :: w.closing.toList.map char))

def IsPattern (p : Pattern) : Prop :=
  p = alt w.pattern (literal w.single) ∨ p = alt (literal w.single) w.pattern

instance (p : Pattern) : Decidable (w.IsPattern p) := by
  unfold IsPattern
  infer_instance

def reach? (line : List Char) : Option Nat :=
  if w.opening.toList <+: line then
    (starts [w.closing] (line.drop w.opening.toList.length)).getLast?.map fun b =>
      w.opening.toList.length + b + w.closing.toList.length
  else none

def taken? (line : List Char) : Option Nat :=
  (w.reach? line).or (if w.single.toList <+: line then some w.single.toList.length else none)

variable {w} {p : Pattern} {line tail : List Char} {n k : Nat}

theorem opening_on_line (w : Stretch) : '\n' ∉ w.opening.toList := (w.on_line _ (by simp)).1

theorem closing_on_line (w : Stretch) : '\n' ∉ w.closing.toList := (w.on_line _ (by simp)).1

theorem single_on_line (w : Stretch) : '\n' ∉ w.single.toList := (w.on_line _ (by simp)).1

theorem opening_pos (w : Stretch) : 0 < w.opening.toList.length :=
  List.length_pos_iff.mpr (mt String.toList_eq_nil_iff.mp (w.on_line _ (by simp)).2)

theorem single_pos (w : Stretch) : 0 < w.single.toList.length :=
  List.length_pos_iff.mpr (mt String.toList_eq_nil_iff.mp (w.on_line _ (by simp)).2)

/-- A stretch ends with the last closing word of its line. -/
theorem first_pattern (hline : '\n' ∉ line) (htail : EndsLine tail) (groups : List (Option Span)) :
    w.pattern.first ⟨n, line ++ tail, groups, []⟩ =
      (w.reach? line).map (Progress.advance ⟨n, line ++ tail, groups, []⟩) := by
  rw [first, pattern, outcomes_word, reach?]
  simp only [prefix_append_iff w.opening_on_line htail]
  by_cases hopening : w.opening.toList <+: line
  · have hle := hopening.length_le
    have hahead : (Progress.advance ⟨n, line ++ tail, groups, []⟩ w.opening.toList.length).rest =
        line.drop w.opening.toList.length ++ tail := List.drop_append_of_le_length hle
    have hrest : '\n' ∉ line.drop w.opening.toList.length := fun h => hline (List.mem_of_mem_drop h)
    rw [if_pos hopening, if_pos hopening, outcomes_ofList_cons, anyChar,
      outcomes_star_one, hahead, holds_anyChar, Text.takeWhile_line hrest htail]
    have hclosing : (ofList (w.closing.toList.map char)).outcomes = fun s =>
        if w.closing.toList <+: s.rest then [s.advance w.closing.toList.length] else [] :=
      funext (outcomes_literal w.closing)
    rw [hclosing, head?_flatMap_reverse, Text.starts_singleton, Option.map_map]
    have hplaces : ∀ k ∈ List.range ((line.drop w.opening.toList.length).length + 1),
        decide (w.closing.toList <+: ((Progress.advance ⟨n, line ++ tail, groups, []⟩
          w.opening.toList.length).advance k).rest) =
        decide (w.closing.toList <+: (line.drop w.opening.toList.length).drop k) := by
      intro k hk
      rw [List.mem_range, List.length_drop] at hk
      have hend : w.opening.toList.length + k ≤ line.length := by omega
      rw [Progress.advance_advance, Progress.advance, List.drop_append_of_le_length hend,
        List.drop_drop]
      exact decide_eq_decide.mpr (prefix_append_iff w.closing_on_line htail)
    rw [List.filter_congr hplaces]
    congr 1
    funext k
    simp only [Function.comp_apply, Progress.advance_advance, Nat.add_assoc]
  · rw [if_neg hopening, if_neg hopening]
    rfl

theorem not_opening_of_single (h : w.single.toList <+: line) : ¬w.opening.toList <+: line := by
  intro hopening
  rcases List.prefix_or_prefix_of_prefix hopening h with hle | hle
  · exact w.differ.1 hle
  · exact w.differ.2 hle

/-- No stretch begins with a single word. -/
theorem reach?_eq_none_of_single (h : w.single.toList <+: line) : w.reach? line = none :=
  if_neg (not_opening_of_single h)

theorem taken?_of_opening (h : w.opening.toList <+: line) : w.taken? line = w.reach? line := by
  rw [taken?, if_neg fun hsingle => not_opening_of_single hsingle h, Option.or_none]

/-- Either pattern takes what there is to take at the head of the line. -/
theorem runAt_eq (hp : w.IsPattern p) (hline : '\n' ∉ line) (htail : EndsLine tail) (n : Nat) :
    p.runAt n (line ++ tail) = (w.taken? line).map
      (Progress.advance ⟨n, line ++ tail, List.replicate p.groupCount none, []⟩) := by
  rw [runAt_eq_first]
  generalize List.replicate p.groupCount none = groups
  rcases hp with rfl | rfl
  all_goals
    rw [first_alt_eq, first_pattern hline htail, first_literal, taken?]
    simp only [prefix_append_iff w.single_on_line htail]
    by_cases hsingle : w.single.toList <+: line
    · rw [if_pos hsingle, if_pos hsingle, reach?_eq_none_of_single hsingle]
      rfl
    · rw [if_neg hsingle, if_neg hsingle]
      cases w.reach? line <;> rfl

theorem taken?_of_single (h : w.single.toList <+: line) :
    w.taken? line = some w.single.toList.length := by
  rw [taken?, reach?_eq_none_of_single h, if_pos h]
  rfl

theorem taken?_eq_none (hreach : w.reach? line = none) (h : ¬w.single.toList <+: line) :
    w.taken? line = none := by
  rw [taken?, hreach, if_neg h]
  rfl

theorem reach?_eq_some (h : w.reach? line = some k) : w.opening.toList <+: line ∧
    ∃ b, (starts [w.closing] (line.drop w.opening.toList.length)).getLast? = some b ∧
      w.opening.toList.length + b + w.closing.toList.length = k := by
  rw [reach?] at h
  split_ifs at h with hopening
  · exact ⟨hopening, Option.map_eq_some_iff.mp h⟩

theorem taken?_le (h : w.taken? line = some k) : 0 < k ∧ k ≤ line.length := by
  rcases Option.or_eq_some_iff.mp h with hreach | ⟨-, hsingle⟩
  · obtain ⟨hopening, b, hb, rfl⟩ := reach?_eq_some hreach
    have hle := Text.add_length_le_of_mem_starts (List.mem_of_getLast? hb)
    have hlong := hopening.length_le
    have hpos := w.opening_pos
    rw [List.length_drop] at hle
    omega
  · split_ifs at hsingle with hprefix
    · obtain rfl := Option.some.inj hsingle
      exact ⟨w.single_pos, hprefix.length_le⟩

theorem neverEmpty (hp : w.IsPattern p) : p.NeverEmpty := by
  intro n text s hrun
  obtain ⟨line, tail, rfl, hline, htail⟩ := Text.exists_line text
  rw [runAt_eq hp hline htail] at hrun
  obtain ⟨k, hk, rfl⟩ := Option.map_eq_some_iff.mp hrun
  obtain ⟨hpos, hle⟩ := taken?_le hk
  rw [Progress.advance, List.length_drop, List.length_append]
  omega

/-- A stretch that begins at a place of a line has an opening word there and a closing word after
it. -/
theorem exists_of_reach? {i : Nat} (hi : i ≤ line.length) (h : w.reach? (line.drop i) = some k) :
    i ∈ starts [w.opening] line ∧ ∃ b ∈ starts [w.closing] line, i < b := by
  obtain ⟨hopening, b, hb, -⟩ := reach?_eq_some h
  have hle := hopening.length_le
  rw [List.length_drop] at hle
  obtain ⟨hb, hclosing⟩ := mem_starts_singleton.mp (List.mem_of_getLast? hb)
  rw [List.drop_drop, List.drop_drop, ← Nat.add_assoc] at hclosing
  rw [List.drop_drop, List.length_drop] at hb
  have hpos := w.opening_pos
  refine ⟨mem_starts_singleton.mpr ⟨hi, hopening⟩, i + w.opening.toList.length + b, ?_, by omega⟩
  exact mem_starts_singleton.mpr ⟨by omega, hclosing⟩

/-- It ends with the last closing word of the whole line. -/
theorem reach?_drop {i b : Nat} (hopening : i ∈ starts [w.opening] line)
    (hb : (starts [w.closing] line).getLast? = some b) (hib : i < b) :
    w.reach? (line.drop i) = some (b - i + w.closing.toList.length) := by
  have hprefix := (mem_starts_singleton.mp hopening).2
  have hinside := Text.add_length_le_of_mem_starts hopening
  obtain ⟨hble, hclosing⟩ := mem_starts_singleton.mp (List.mem_of_getLast? hb)
  -- no closing word begins inside the opening one
  have hle : i + w.opening.toList.length ≤ b := by
    by_contra hlt
    apply w.closing_outside.not_begins hprefix (Nat.sub_pos_of_lt hib) (by omega)
    rwa [List.drop_drop, Nat.add_sub_cancel' hib.le]
  rw [Text.starts_eq_append [w.closing] hinside, List.getLast?_append] at hb
  rw [reach?, if_pos hprefix, List.drop_drop]
  cases hlast : (starts [w.closing] (line.drop (i + w.opening.toList.length))).getLast? with
  | none =>
    rw [List.getLast?_map, hlast] at hb
    have hlt := of_decide_eq_true (List.mem_filter.mp (List.mem_of_getLast? hb)).2
    omega
  | some d =>
    rw [List.getLast?_map, hlast] at hb
    obtain rfl : i + w.opening.toList.length + d = b := Option.some.inj hb
    rw [Option.map_some]
    congr 1
    omega

/-- No other stretch begins in the rest of a line after a stretch: the closing words are used up. -/
theorem reach?_drop_eq_none {i : Nat} (h : w.reach? line = some k) (hk : k ≤ i)
    (hi : i ≤ line.length) : w.reach? (line.drop i) = none := by
  refine Option.eq_none_iff_forall_ne_some.mpr fun k' hk' => ?_
  obtain ⟨hopening, d, hd, hpos⟩ := exists_of_reach? (Nat.zero_le _) h
  obtain ⟨b, hb⟩ := Option.isSome_iff_exists.mp (List.getLast?_isSome.mpr (List.ne_nil_of_mem hd))
  have hle := Text.le_of_mem_starts_getLast? hd hb
  obtain rfl : b - 0 + w.closing.toList.length = k :=
    Option.some.inj ((reach?_drop hopening hb (by omega)).symm.trans h)
  obtain ⟨-, d', hd', hlt⟩ := exists_of_reach? hi hk'
  have hle' := Text.le_of_mem_starts_getLast? hd' hb
  omega

end Stretch

end MigrationAudit
