import MigrationAudit.Pattern.Match
import Mathlib.Data.List.TakeWhile
import Mathlib.Tactic.SplitIfs

namespace MigrationAudit

theorem findSome?_flatMap {α β γ : Type} (f : α → List β) (g : β → Option γ) (l : List α) :
    (l.flatMap f).findSome? g = l.findSome? fun a => (f a).findSome? g := by
  induction l with
  | nil => rfl
  | cons a l ih =>
    rw [List.flatMap_cons, List.findSome?_append, ih, List.findSome?_cons]
    cases (f a).findSome? g <;> rfl

namespace Text

/-- A run of characters that what follows does not go on with. -/
structure IsRun (p : Char → Bool) (run after : List Char) : Prop where
  holds : ∀ c ∈ run, p c
  ends : after.head?.any p = false

theorem isRun_iff {p : Char → Bool} {text run after : List Char} :
    text = run ++ after ∧ IsRun p run after ↔
      run = text.takeWhile p ∧ after = text.dropWhile p := by
  constructor
  · rintro ⟨rfl, hrun⟩
    rw [List.takeWhile_append_of_pos hrun.holds, List.dropWhile_append_of_pos hrun.holds]
    cases after with
    | nil => exact ⟨(List.append_nil _).symm, rfl⟩
    | cons c after =>
      have hc : ¬p c = true := by simpa using hrun.ends
      rw [List.takeWhile_cons_of_neg hc, List.dropWhile_cons_of_neg hc, List.append_nil]
      exact ⟨rfl, rfl⟩
  · rintro ⟨rfl, rfl⟩
    refine ⟨List.takeWhile_append_dropWhile.symm, fun c hc => List.mem_takeWhile_imp hc, ?_⟩
    have hhead := List.head?_dropWhile_not p text
    cases h : (text.dropWhile p).head? with
    | none => rfl
    | some c => simpa [h] using hhead

/-- There is one way to read a run off a text. -/
theorem exists_run_iff {p : Char → Bool} {text : List Char} {P : List Char → List Char → Prop} :
    (∃ run after, text = run ++ after ∧ IsRun p run after ∧ P run after) ↔
      P (text.takeWhile p) (text.dropWhile p) := by
  constructor
  · rintro ⟨run, after, htext, hrun, h⟩
    obtain ⟨rfl, rfl⟩ := isRun_iff.mp ⟨htext, hrun⟩
    exact h
  · intro h
    obtain ⟨htext, hrun⟩ := isRun_iff.mpr ⟨rfl, rfl⟩
    exact ⟨_, _, htext, hrun, h⟩

end Text

namespace Progress

def advance (s : Progress) (n : Nat) : Progress :=
  ⟨s.position + n, s.rest.drop n, s.groups, if n = 0 then s.passed else []⟩

theorem advance_zero (s : Progress) : s.advance 0 = s := rfl

theorem advance_advance (s : Progress) (m n : Nat) :
    (s.advance m).advance n = s.advance (m + n) := by
  cases n <;> simp [advance, List.drop_drop, Nat.add_assoc]

theorem advance_takeWhile (n : Nat) (text : List Char) (groups : List (Option Span))
    (p : Char → Bool) :
    advance ⟨n, text, groups, []⟩ (text.takeWhile p).length =
      ⟨n + (text.takeWhile p).length, text.dropWhile p, groups, []⟩ := by
  have hdrop : text.drop (text.takeWhile p).length = text.dropWhile p := by
    conv => lhs; arg 2; rw [← List.takeWhile_append_dropWhile (p := p) (l := text)]
    exact List.drop_left
  rw [Progress.advance, hdrop, ite_self]

end Progress

open Text (IsRun exists_run_iff)

namespace Pattern

/-- The ways to go on with a loop from its fork, the preferred one first. -/
def moreOutcomes (fork : Option Nat) (greedy : Bool) (body : Progress → List Progress)
    (s : Progress) : List Progress :=
  (s.pass? fork).elim [] fun here =>
    let again := (body here).flatMap fun t =>
      if t.rest.length < s.rest.length then moreOutcomes fork greedy body t else []
    if greedy then again ++ [here] else here :: again
termination_by s.rest.length

/-- All ways to match a pattern from `s` on, the preferred one first. -/
def outcomes : Pattern → Progress → List Progress
  | empty, s => [s]
  | one set, s => if s.rest.head?.any set.holds then [s.advance 1] else []
  | textStart, s => if s.position = 0 then [s] else []
  | textEnd, s => if s.rest.isEmpty then [s] else []
  | seq p q, s => (p.outcomes s).flatMap q.outcomes
  | alt p q, s => p.outcomes s ++ q.outcomes s
  | group i p, s =>
    (p.outcomes s).map fun t =>
      { t with groups := t.groups.set (i - 1) (some ⟨s.position, t.position⟩) }
  | loop fork greedy p, s => (p.outcomes s).flatMap (moreOutcomes fork greedy p.outcomes)
  | star fork greedy p, s => moreOutcomes fork greedy p.outcomes s
  | once fork p, s => (s.pass? fork).elim [] p.outcomes

theorem runMore_eq {fork : Option Nat} {greedy : Bool}
    {body : (Progress → Option Progress) → Progress → Option Progress}
    {found : Progress → List Progress} (hbody : ∀ next s, body next s = (found s).findSome? next)
    (next : Progress → Option Progress) (s : Progress) :
    runMore fork greedy body next s = (moreOutcomes fork greedy found s).findSome? next := by
  induction hn : s.rest.length using Nat.strongRecOn generalizing s with
  | ind n ih =>
    subst hn
    rw [runMore, moreOutcomes]
    cases s.pass? fork with
    | none => rfl
    | some here =>
      have hagain :
          body (fun t =>
            if t.rest.length < s.rest.length then runMore fork greedy body next t else none) here =
          ((found here).flatMap fun t =>
            if t.rest.length < s.rest.length then moreOutcomes fork greedy found t else []
          ).findSome? next := by
        rw [hbody, findSome?_flatMap]
        congr 1
        funext t
        split_ifs with ht
        · exact ih _ ht t rfl
        · rfl
      rw [Option.bind_some, Option.elim_some, prefer, hagain]
      cases greedy with
      | true =>
        rw [if_pos rfl, if_pos rfl, List.findSome?_append, List.findSome?_singleton]
        exact Option.orElse_eq_or
      | false =>
        rw [if_neg Bool.false_ne_true, if_neg Bool.false_ne_true, List.findSome?_cons]
        cases next here <;> rfl

/-- To try the ways to match in order of preference is to look for the first outcome that is
accepted. -/
theorem run_eq (p : Pattern) (next : Progress → Option Progress) (s : Progress) :
    p.run next s = (p.outcomes s).findSome? next := by
  induction p generalizing next s with
  | empty => rw [run, outcomes, List.findSome?_singleton]
  | one set =>
    rw [run, outcomes]
    cases hrest : s.rest with
    | nil => rfl
    | cons c rest =>
      by_cases hc : set.holds c
      · simp [hc, Progress.advance, hrest]
      · simp [hc]
  | textStart =>
    rw [run, outcomes]
    split_ifs
    · rw [List.findSome?_singleton]
    · rfl
  | textEnd =>
    rw [run, outcomes]
    split_ifs
    · rw [List.findSome?_singleton]
    · rfl
  | seq p q hp hq =>
    rw [run, outcomes, hp, findSome?_flatMap]
    congr 1
    funext t
    exact hq next t
  | alt p q hp hq =>
    rw [run, outcomes, hp, hq, List.findSome?_append]
    exact Option.orElse_eq_or
  | group i p hp =>
    rw [run, outcomes, hp, List.findSome?_map]
    rfl
  | loop fork greedy p hp =>
    rw [run, outcomes, hp, findSome?_flatMap]
    congr 1
    funext t
    exact runMore_eq hp next t
  | star fork greedy p hp =>
    rw [run, outcomes]
    exact runMore_eq hp next s
  | once fork p hp =>
    rw [run, outcomes]
    cases s.pass? fork with
    | none => rfl
    | some here => exact hp next here

def first (p : Pattern) (s : Progress) : Option Progress := (p.outcomes s).head?

theorem runAt_eq_first (p : Pattern) (position : Nat) (rest : List Char) :
    p.runAt position rest = p.first ⟨position, rest, List.replicate p.groupCount none, []⟩ := by
  rw [runAt, run_eq, first, ← List.head?_filterMap, List.filterMap_some]

section Items

variable (s : Progress)

theorem holds_char {c d : Char} : (⟨[.range c c], false⟩ : CharSet).holds d ↔ d = c := by
  simp only [CharSet.holds, CharItem.holds, List.any_cons, List.any_nil, Bool.or_false,
    Bool.bne_false, Bool.and_eq_true, decide_eq_true_eq]
  exact ⟨fun h => Char.le_antisymm h.2 h.1, fun h => h ▸ ⟨Char.le_refl _, Char.le_refl _⟩⟩

theorem outcomes_char (c : Char) :
    (char c).outcomes s = if s.rest.head? = some c then [s.advance 1] else [] := by
  rw [char, outcomes]
  cases s.rest with
  | nil => rfl
  | cons d rest => simp [holds_char]

theorem outcomes_ofList_cons (p : Pattern) (items : List Pattern) :
    (ofList (p :: items)).outcomes s = (p.outcomes s).flatMap (ofList items).outcomes := by
  cases items with
  | nil => exact (List.flatMap_singleton' (p.outcomes s)).symm
  | cons q items => rfl

/-- A word is matched where it stands. -/
theorem outcomes_word (word : List Char) (items : List Pattern) :
    (ofList (word.map char ++ items)).outcomes s =
      if word <+: s.rest then (ofList items).outcomes (s.advance word.length) else [] := by
  induction word generalizing s with
  | nil => simp [Progress.advance]
  | cons c word ih =>
    rw [List.map_cons, List.cons_append, outcomes_ofList_cons, outcomes_char]
    by_cases hc : s.rest.head? = some c
    · obtain ⟨rest, hrest⟩ := List.head?_eq_some_iff.mp hc
      have hahead : (s.advance 1).rest = rest := by rw [Progress.advance, hrest]; rfl
      rw [if_pos hc, List.flatMap_singleton, ih, hahead, hrest, Progress.advance_advance,
        List.length_cons, Nat.add_comm]
      simp only [List.cons_prefix_cons, true_and]
    · have hword : ¬c :: word <+: s.rest := by
        rintro ⟨after, hafter⟩
        exact hc (by rw [← hafter]; rfl)
      rw [if_neg hc, if_neg hword, List.flatMap_nil]

theorem moreOutcomes_none (greedy : Bool) (body : Progress → List Progress) :
    moreOutcomes none greedy body s =
      let again := (body s).flatMap fun t =>
        if t.rest.length < s.rest.length then moreOutcomes none greedy body t else []
      if greedy then again ++ [s] else s :: again := by
  rw [moreOutcomes]
  rfl

/-- A greedy loop over a set of characters stops at every place of the longest run of them, the last
one first. -/
theorem outcomes_star_one (set : CharSet) :
    (star none true (one set)).outcomes s =
      ((List.range ((s.rest.takeWhile set.holds).length + 1)).map s.advance).reverse := by
  rw [outcomes]
  induction hrest : s.rest generalizing s with
  | nil =>
    rw [moreOutcomes_none, outcomes, hrest]
    rfl
  | cons c rest ih =>
    have hahead : (s.advance 1).rest = rest := by rw [Progress.advance, hrest]; rfl
    rw [moreOutcomes_none, outcomes, hrest]
    by_cases hc : set.holds c
    · have hmore : (s.advance 1).rest.length < (c :: rest).length := by simp [hahead]
      simp only [List.head?_cons, Option.any_some, hc, if_true, List.flatMap_singleton, hmore]
      rw [ih _ hahead, List.takeWhile_cons_of_pos hc, List.length_cons]
      generalize (rest.takeWhile set.holds).length = n
      have hlater : (List.range (n + 1)).map (s.advance 1).advance =
          (List.range (n + 1)).map (s.advance ∘ Nat.succ) :=
        List.map_congr_left fun k _ => by rw [Progress.advance_advance, Nat.add_comm]; rfl
      rw [hlater, List.range_succ_eq_map (n := n + 1), List.map_cons, List.map_map,
        List.reverse_cons, Progress.advance_zero]
    · simp [hc, Progress.advance_zero]

/-- A loop is a loop that may stop at once, but for that. -/
theorem outcomes_star_one_eq_append (set : CharSet) :
    (star none true (one set)).outcomes s = (loop none true (one set)).outcomes s ++ [s] := by
  simp only [outcomes]
  rw [moreOutcomes_none]
  cases hrest : s.rest with
  | nil => rfl
  | cons c rest =>
    have hahead : (s.advance 1).rest = rest := by rw [Progress.advance, hrest]; rfl
    by_cases hc : set.holds c <;> simp [hc, hahead]

theorem outcomes_loop_one (set : CharSet) :
    (loop none true (one set)).outcomes s =
      ((List.range (s.rest.takeWhile set.holds).length).map fun n =>
        s.advance (n + 1)).reverse := by
  have hmore := outcomes_star_one_eq_append s set
  rw [outcomes_star_one, List.range_succ_eq_map, List.map_cons, List.map_map, List.reverse_cons,
    Progress.advance_zero] at hmore
  exact (List.append_cancel_right hmore).symm

end Items

/-- Nothing that begins with such a character is matched. -/
def Avoids (q : Pattern) (p : Char → Bool) : Prop :=
  ∀ s : Progress, s.rest.head?.any p → q.outcomes s = []

section First

variable {set : CharSet} {q : Pattern} {n : Nat} {text : List Char} {groups : List (Option Span)}
  {s : Progress}

theorem first_word {word : List Char} {items : List Pattern} :
    (ofList (word.map char ++ items)).first ⟨n, text, groups, []⟩ = some s ↔
      ∃ rest, text = word ++ rest ∧
        (ofList items).first ⟨n + word.length, rest, groups, []⟩ = some s := by
  rw [first, outcomes_word]
  by_cases hword : word <+: text
  · obtain ⟨rest, rfl⟩ := hword
    simp [Progress.advance, first]
  · rw [if_neg hword]
    constructor
    · intro h
      cases h
    · rintro ⟨rest, rfl, -⟩
      exact absurd (List.prefix_append word rest) hword

theorem first_seq_char {c : Char} : (seq (char c) q).first ⟨n, text, groups, []⟩ = some s ↔
    ∃ rest, text = c :: rest ∧ q.first ⟨n + 1, rest, groups, []⟩ = some s := by
  change (ofList ([c].map char ++ [q])).first _ = _ ↔ _
  exact first_word

theorem head?_drop_of_lt {p : Char → Bool} {k : Nat} (h : k < (text.takeWhile p).length) :
    (text.drop k).head?.any p := by
  have hinit := List.takeWhile_prefix p (l := text)
  have hmem := List.getElem_mem h
  rw [hinit.getElem h] at hmem
  rw [List.head?_drop, List.getElem?_eq_getElem (h.trans_le hinit.length_le), Option.any_some]
  exact List.mem_takeWhile_imp hmem

/-- What does not begin with a character of a run goes on at its end only. -/
theorem flatMap_star_one (h : q.Avoids set.holds) :
    ((star none true (one set)).outcomes ⟨n, text, groups, []⟩).flatMap q.outcomes =
      q.outcomes ⟨n + (text.takeWhile set.holds).length, text.dropWhile set.holds, groups, []⟩ := by
  have hinside : (((List.range (text.takeWhile set.holds).length).map
      (Progress.advance ⟨n, text, groups, []⟩)).reverse).flatMap q.outcomes = [] := by
    rw [List.flatMap_eq_nil_iff]
    intro t ht
    obtain ⟨k, hk, rfl⟩ := List.mem_map.mp (List.mem_reverse.mp ht)
    exact h _ (head?_drop_of_lt (List.mem_range.mp hk))
  rw [outcomes_star_one, List.range_succ, List.map_append, List.reverse_append, List.flatMap_append,
    hinside, List.append_nil, ← Progress.advance_takeWhile]
  exact List.flatMap_singleton ..

theorem first_seq_star (h : q.Avoids set.holds) :
    (seq (star none true (one set)) q).first ⟨n, text, groups, []⟩ = some s ↔
      ∃ run rest, text = run ++ rest ∧ IsRun set.holds run rest ∧
        q.first ⟨n + run.length, rest, groups, []⟩ = some s := by
  rw [exists_run_iff, first, outcomes, flatMap_star_one h]
  rfl

theorem first_seq_loop_one (h : q.Avoids set.holds) :
    (seq (loop none true (one set)) q).first ⟨n, text, groups, []⟩ = some s ↔
      ∃ run rest, text = run ++ rest ∧ IsRun set.holds run rest ∧ run ≠ [] ∧
        q.first ⟨n + run.length, rest, groups, []⟩ = some s := by
  rw [exists_run_iff, first, outcomes]
  by_cases hrun : text.takeWhile set.holds = []
  · rw [outcomes_loop_one, hrun]
    simp
  · have hfirst : q.outcomes ⟨n, text, groups, []⟩ = [] :=
      h _ (head?_drop_of_lt (k := 0) (List.length_pos_iff.mpr hrun))
    have hmore : ((loop none true (one set)).outcomes ⟨n, text, groups, []⟩).flatMap q.outcomes =
        q.outcomes
          ⟨n + (text.takeWhile set.holds).length, text.dropWhile set.holds, groups, []⟩ := by
      rw [← flatMap_star_one h, outcomes_star_one_eq_append, List.flatMap_append,
        List.flatMap_singleton, hfirst, List.append_nil]
    rw [hmore, and_iff_right hrun]
    rfl

theorem first_loop_one : (loop none true (one set)).first ⟨n, text, groups, []⟩ = some s ↔
    ∃ run rest, text = run ++ rest ∧ IsRun set.holds run rest ∧ run ≠ [] ∧
      s = ⟨n + run.length, rest, groups, []⟩ := by
  rw [exists_run_iff, first, outcomes_loop_one, ← Progress.advance_takeWhile]
  by_cases hrun : text.takeWhile set.holds = []
  · simp [hrun]
  · obtain ⟨k, hk⟩ := Nat.exists_eq_add_one_of_ne_zero (mt List.length_eq_zero_iff.mp hrun)
    rw [hk, List.range_succ, List.map_append, List.reverse_append, and_iff_right hrun]
    exact Option.some_inj.trans eq_comm

theorem first_group {i : Nat} {p : Pattern} : (group i p).first ⟨n, text, groups, []⟩ = some s ↔
    ∃ t, p.first ⟨n, text, groups, []⟩ = some t ∧
      s = { t with groups := t.groups.set (i - 1) (some ⟨n, t.position⟩) } := by
  rw [first, outcomes, List.head?_map, Option.map_eq_some_iff]
  simp only [eq_comm (b := s), first]

theorem first_alt {p : Pattern} {t : Progress} :
    (alt p q).first s = some t ↔ p.first s = some t ∨ p.first s = none ∧ q.first s = some t := by
  rw [first, outcomes, List.head?_append, Option.or_eq_some_iff]
  rfl

end First

section Avoids

variable {f : Char → Bool} {p : Pattern}

theorem avoids_one {set : CharSet} (h : ∀ c, f c → set.holds c = false) : (one set).Avoids f := by
  intro s hs
  cases hrest : s.rest with
  | nil => simp [outcomes, hrest]
  | cons c rest =>
    rw [hrest] at hs
    simp [outcomes, hrest, h c hs]

theorem Avoids.seq (h : p.Avoids f) (q : Pattern) : (p.seq q).Avoids f := by
  intro s hs
  rw [outcomes, h s hs]
  rfl

theorem Avoids.loop (h : p.Avoids f) (fork : Option Nat) (greedy : Bool) :
    (loop fork greedy p).Avoids f := by
  intro s hs
  rw [outcomes, h s hs]
  rfl

theorem Avoids.group (h : p.Avoids f) (i : Nat) : (group i p).Avoids f := by
  intro s hs
  rw [outcomes, h s hs]
  rfl

end Avoids

end Pattern

end MigrationAudit
