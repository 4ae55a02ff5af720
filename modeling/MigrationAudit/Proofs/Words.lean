import MigrationAudit.Proofs.Outcomes
import MigrationAudit.Proofs.Scanning
import Mathlib.Data.List.Infix
import Mathlib.Data.List.Sort

namespace MigrationAudit

namespace Text

def starts (words : List String) (text : List Char) : List Nat :=
  (List.range (text.length + 1)).filter fun n => words.any fun w =>
    w.toList.isPrefixOf (text.drop n)

/-- No copy of the second word begins inside the first, whatever follows there. -/
def Clear (w w' : String) : Prop :=
  ∀ k < w.toList.length, 0 < k → ¬w.toList.drop k <+: w'.toList ∧ ¬w'.toList <+: w.toList.drop k

instance (w w' : String) : Decidable (Clear w w') := by
  unfold Clear
  infer_instance

/-- The words are not empty, and none begins inside one of them. -/
def KeepApart (words : List String) : Prop :=
  words ≠ [] ∧ ∀ w ∈ words, w ≠ "" ∧ ∀ w' ∈ words, Clear w w'

instance (words : List String) : Decidable (KeepApart words) := by
  unfold KeepApart
  infer_instance

variable {words : List String} {w w' : String} {text : List Char} {n k : Nat}

theorem mem_starts :
    n ∈ starts words text ↔ n ≤ text.length ∧ ∃ w ∈ words, w.toList <+: text.drop n := by
  simp only [starts, List.mem_filter, List.mem_range, Nat.lt_succ_iff, List.any_eq_true,
    List.isPrefixOf_iff_prefix]

theorem pairwise_starts (words : List String) (text : List Char) :
    (starts words text).Pairwise (· < ·) :=
  List.pairwise_lt_range.filter _

theorem le_of_mem_starts_head? {i r : Nat} (hi : i ∈ starts words text)
    (hr : (starts words text).head? = some r) : r ≤ i := by
  obtain ⟨after, hsplit⟩ := List.head?_eq_some_iff.mp hr
  have hsorted := pairwise_starts words text
  rw [hsplit] at hi hsorted
  rcases List.mem_cons.mp hi with rfl | hi
  · exact le_rfl
  · exact ((List.pairwise_cons.mp hsorted).1 i hi).le

theorem le_of_mem_starts_getLast? {i b : Nat} (hi : i ∈ starts words text)
    (hb : (starts words text).getLast? = some b) : i ≤ b := by
  obtain ⟨before, hsplit⟩ := List.getLast?_eq_some_iff.mp hb
  have hsorted := pairwise_starts words text
  rw [hsplit] at hi hsorted
  rcases List.mem_append.mp hi with hi | hi
  · exact ((List.pairwise_append.mp hsorted).2.2 i hi b (List.mem_singleton_self b)).le
  · exact (List.mem_singleton.mp hi).le

theorem starts_singleton (word : String) (text : List Char) : starts [word] text =
    (List.range (text.length + 1)).filter fun n => word.toList <+: text.drop n := by
  refine List.filter_congr fun n _ => ?_
  rw [List.any_cons, List.any_nil, Bool.or_false, Bool.eq_iff_iff, List.isPrefixOf_iff_prefix,
    decide_eq_true_iff]

theorem mem_starts_singleton :
    n ∈ starts [w] text ↔ n ≤ text.length ∧ w.toList <+: text.drop n := by
  simp only [mem_starts, List.mem_singleton, exists_eq_left]

theorem add_length_le_of_mem_starts (h : n ∈ starts [w] text) :
    n + w.toList.length ≤ text.length := by
  obtain ⟨hle, hprefix⟩ := mem_starts_singleton.mp h
  have hlength := hprefix.length_le
  rw [List.length_drop] at hlength
  omega

theorem starts_eq_append (words : List String) (hk : k ≤ text.length) :
    starts words text = (starts words text).filter (· < k) ++
      (starts words (text.drop k)).map (k + ·) := by
  apply List.Pairwise.eq_of_mem_iff (pairwise_starts words text)
  · rw [List.pairwise_append, List.pairwise_map]
    refine ⟨(pairwise_starts words text).filter _,
      (pairwise_starts words _).imp fun hlt => Nat.add_lt_add_left hlt k, fun i hi j hj => ?_⟩
    obtain ⟨d, -, rfl⟩ := List.mem_map.mp hj
    exact (of_decide_eq_true (List.mem_filter.mp hi).2).trans_le (Nat.le_add_right k d)
  · intro i
    rw [List.mem_append, List.mem_filter, List.mem_map, decide_eq_true_eq]
    simp only [mem_starts, List.length_drop, List.drop_drop]
    constructor
    · rintro ⟨hi, hword⟩
      rcases lt_or_ge i k with hlt | hge
      · exact .inl ⟨⟨hi, hword⟩, hlt⟩
      · obtain ⟨d, rfl⟩ := Nat.exists_eq_add_of_le hge
        exact .inr ⟨d, ⟨by omega, hword⟩, rfl⟩
    · rintro (⟨h, -⟩ | ⟨d, ⟨hd, hword⟩, rfl⟩)
      · exact h
      · exact ⟨by omega, hword⟩

/-- The places from `k` on are those of what is left there. -/
theorem length_filter_starts_ge (words : List String) (hk : k ≤ text.length) :
    ((starts words text).filter (k ≤ ·)).length = (starts words (text.drop k)).length := by
  have hsplit := congrArg (fun l => (l.filter (k ≤ ·)).length) (starts_eq_append words hk)
  have hbefore : ((starts words text).filter (· < k)).filter (k ≤ ·) = [] := by
    refine List.filter_eq_nil_iff.mpr fun i hi => ?_
    have hlt := of_decide_eq_true (List.mem_filter.mp hi).2
    simpa using hlt
  have hafter : ((starts words (text.drop k)).map (k + ·)).filter (k ≤ ·) =
      (starts words (text.drop k)).map (k + ·) := by
    refine List.filter_eq_self.mpr fun i hi => ?_
    obtain ⟨d, -, rfl⟩ := List.mem_map.mp hi
    exact decide_eq_true (Nat.le_add_right k d)
  rwa [List.filter_append, hbefore, hafter, List.nil_append, List.length_map] at hsplit

/-- The places before `k` are those before an earlier place, and those between the two. -/
theorem length_filter_starts_lt (words : List String) {i : Nat} (hi : i ≤ text.length)
    (hik : i ≤ k) :
    ((starts words text).filter (· < k)).length = ((starts words text).filter (· < i)).length +
      ((starts words (text.drop i)).filter (· < k - i)).length := by
  have hsplit := congrArg (fun l => (l.filter (· < k)).length) (starts_eq_append words hi)
  have hbefore : ((starts words text).filter (· < i)).filter (· < k) =
      (starts words text).filter (· < i) := by
    refine List.filter_eq_self.mpr fun d hd => ?_
    have hlt := of_decide_eq_true (List.mem_filter.mp hd).2
    exact decide_eq_true (hlt.trans_le hik)
  have hafter : ((starts words (text.drop i)).map (i + ·)).filter (· < k) =
      ((starts words (text.drop i)).filter (· < k - i)).map (i + ·) := by
    rw [List.filter_map]
    congr 2
    funext d
    simp only [Function.comp_apply, decide_eq_decide]
    omega
  rwa [List.filter_append, hbefore, hafter, List.length_append, List.length_map] at hsplit

theorem Clear.not_begins (h : Clear w w') (hw : w.toList <+: text) (hpos : 0 < k)
    (hk : k < w.toList.length) : ¬w'.toList <+: text.drop k := by
  intro hw'
  obtain ⟨hlong, hshort⟩ := h k hk hpos
  obtain ⟨after, rfl⟩ := hw
  rw [List.drop_append_of_le_length hk.le] at hw'
  rcases List.prefix_or_prefix_of_prefix hw' (List.prefix_append _ _) with hle | hle
  · exact hshort hle
  · exact hlong hle

/-- Up to its end a word stands at one place. -/
theorem Clear.length_filter_starts (h : Clear w w) (hw : w.toList <+: text)
    (hpos : 0 < w.toList.length) : ((starts [w] text).filter (· < w.toList.length)).length = 1 := by
  suffices (starts [w] text).filter (· < w.toList.length) = [0] by rw [this, List.length_singleton]
  apply List.Pairwise.eq_of_mem_iff ((pairwise_starts [w] text).filter _)
    (List.pairwise_singleton _ 0)
  intro i
  rw [List.mem_filter, decide_eq_true_iff, mem_starts_singleton, List.mem_singleton]
  constructor
  · rintro ⟨⟨-, hi⟩, hlt⟩
    by_contra hne
    exact h.not_begins hw (Nat.pos_of_ne_zero hne) hlt hi
  · rintro rfl
    exact ⟨⟨Nat.zero_le _, hw⟩, hpos⟩

end Text

open Text (KeepApart Clear starts mem_starts pairwise_starts)

namespace Pattern

def literal (w : String) : Pattern := ofList (w.toList.map char)

def ofWords (words : List String) : Pattern := anyOf (words.map literal)

variable {words : List String} {w : String} {text : List Char} {n : Nat} {s t : Progress}

theorem outcomes_literal (w : String) (s : Progress) :
    (literal w).outcomes s = if w.toList <+: s.rest then [s.advance w.toList.length] else [] := by
  have hword := outcomes_word s w.toList []
  rwa [List.append_nil] at hword

theorem first_literal (w : String) (s : Progress) :
    (literal w).first s = if w.toList <+: s.rest then some (s.advance w.toList.length)
      else none := by
  rw [first, outcomes_literal]
  split_ifs <;> rfl

theorem outcomes_anyOf {ps : List Pattern} (h : ps ≠ []) (s : Progress) :
    (anyOf ps).outcomes s = ps.flatMap (·.outcomes s) := by
  induction ps with
  | nil => exact absurd rfl h
  | cons p ps ih =>
    cases ps with
    | nil => exact (List.flatMap_singleton ..).symm
    | cons q ps =>
      change p.outcomes s ++ (anyOf (q :: ps)).outcomes s = _
      rw [ih (List.cons_ne_nil q ps)]
      rfl

theorem mem_outcomes_ofWords (h : words ≠ []) :
    t ∈ (ofWords words).outcomes s ↔
      ∃ w ∈ words, w.toList <+: s.rest ∧ t = s.advance w.toList.length := by
  rw [ofWords, outcomes_anyOf (mt List.map_eq_nil_iff.mp h), List.flatMap_map, List.mem_flatMap]
  refine exists_congr fun w => and_congr_right fun _ => ?_
  rw [outcomes_literal]
  split_ifs with hw <;> simp [hw]

/-- The words are found where they stand. -/
theorem isSome_runAt_ofWords (h : words ≠ []) :
    ((ofWords words).runAt n text).isSome ↔ ∃ w ∈ words, w.toList <+: text := by
  rw [runAt_eq_first, first, List.isSome_head?]
  constructor
  · intro hne
    obtain ⟨t, ht⟩ := List.exists_mem_of_ne_nil _ hne
    obtain ⟨w, hw, hprefix, -⟩ := (mem_outcomes_ofWords h).mp ht
    exact ⟨w, hw, hprefix⟩
  · rintro ⟨w, hw, hprefix⟩
    exact List.ne_nil_of_mem ((mem_outcomes_ofWords h).mpr ⟨w, hw, hprefix, rfl⟩)

theorem exists_of_runAt_ofWords (h : words ≠ []) (hrun : (ofWords words).runAt n text = some s) :
    ∃ w ∈ words, w.toList <+: text ∧ s.position = n + w.toList.length ∧
      s.rest = text.drop w.toList.length := by
  rw [runAt_eq_first] at hrun
  obtain ⟨w, hw, hprefix, rfl⟩ := (mem_outcomes_ofWords h).mp (List.mem_of_mem_head? hrun)
  exact ⟨w, hw, hprefix, rfl, rfl⟩

theorem apart_ofWords (h : KeepApart words) : (ofWords words).Apart := by
  obtain ⟨hsome, hwords⟩ := h
  intro n text s hrun
  obtain ⟨w, hw, hprefix, hposition, hrest⟩ := exists_of_runAt_ofWords hsome hrun
  obtain ⟨hne, hclear⟩ := hwords w hw
  have hpos : 0 < w.toList.length := List.length_pos_iff.mpr (mt String.toList_eq_nil_iff.mp hne)
  refine ⟨w.toList.length, hpos, hprefix.length_le, hposition, hrest, fun i hi => ?_⟩
  rw [List.drop_drop, Nat.add_comm 1 i, ← Option.not_isSome_iff_eq_none, isSome_runAt_ofWords hsome]
  rintro ⟨w', hw', hprefix'⟩
  exact (hclear w' hw').not_begins hprefix (Nat.succ_pos i) (by omega) hprefix'

/-- Words that keep apart are found wherever one of them stands. -/
theorem starts_findAll (h : KeepApart words) (text : List Char) :
    ((ofWords words).findAll text).map (·.whole.start) = starts words text := by
  rw [findAll_eq (apart_ofWords h)]
  apply List.Pairwise.eq_of_mem_iff (List.pairwise_map.mpr (pairwise_matchesAt _ 0 text))
    (pairwise_starts words text)
  intro n
  rw [mem_starts, ← isSome_runAt_ofWords (n := n) h.1, List.mem_map]
  constructor
  · rintro ⟨m, hm, rfl⟩
    obtain ⟨k, hk, hmatch⟩ := mem_matchesAt.mp hm
    rw [Nat.zero_add] at hmatch
    rw [start_of_matchAt? hmatch]
    refine ⟨hk, ?_⟩
    obtain ⟨s, hs, -⟩ := Option.map_eq_some_iff.mp hmatch
    rw [hs]
    rfl
  · rintro ⟨hle, hrun⟩
    obtain ⟨s, hs⟩ := Option.isSome_iff_exists.mp hrun
    refine ⟨⟨⟨n, s.position⟩, s.groups⟩, mem_matchesAt.mpr ⟨n, hle, ?_⟩, rfl⟩
    rw [Nat.zero_add, matchAt?, hs]
    rfl

end Pattern

end MigrationAudit
