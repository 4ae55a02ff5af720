import MigrationAudit.Proofs.Outcomes
import Mathlib.Logic.Relation

namespace MigrationAudit

namespace Progress

structure At (text : List Char) (s : Progress) : Prop where
  position_le : s.position ≤ text.length
  rest_eq : s.rest = text.drop s.position

variable {text : List Char} {s t : Progress}

theorem At.length_rest (h : s.At text) : s.rest.length = text.length - s.position := by
  rw [h.rest_eq, List.length_drop]

theorem At.length_lt_iff (hs : s.At text) (ht : t.At text) :
    t.rest.length < s.rest.length ↔ s.position < t.position := by
  have hpos := ht.position_le
  rw [hs.length_rest, ht.length_rest]
  omega

theorem At.head?_rest (h : s.At text) : s.rest.head? = text[s.position]? := by
  rw [h.rest_eq, List.head?_drop]

theorem At.advance_one (h : s.At text) {c : Char} (hc : text[s.position]? = some c) :
    (s.advance 1).At text := by
  obtain ⟨hlt, -⟩ := List.getElem?_eq_some_iff.mp hc
  refine ⟨hlt, ?_⟩
  rw [advance, h.rest_eq, List.drop_drop]

theorem At.isEmpty_rest_iff (h : s.At text) : s.rest.isEmpty ↔ s.position = text.length := by
  have hle := h.position_le
  rw [List.isEmpty_iff_length_eq_zero, h.length_rest]
  omega

theorem pass?_eq_none {fork : Option Nat} (h : s.pass? fork = none) :
    ∃ k ∈ s.passed, fork = some k := by
  cases fork with
  | none => exact absurd h (Option.some_ne_none s)
  | some k =>
    rw [pass?] at h
    split_ifs at h with hk
    exact ⟨k, hk, rfl⟩

/-- To go through a fork changes nothing but what has been passed. -/
structure Through (s : Progress) (fork : Option Nat) (t : Progress) : Prop where
  position : t.position = s.position
  rest : t.rest = s.rest
  groups : t.groups = s.groups
  passed : ∀ k, k ∈ t.passed ↔ fork = some k ∨ k ∈ s.passed

theorem through_of_pass? {fork : Option Nat} (h : s.pass? fork = some t) : s.Through fork t := by
  cases fork with
  | none =>
    obtain rfl := Option.some.inj h
    exact ⟨rfl, rfl, rfl, fun k => by simp⟩
  | some n =>
    rw [pass?] at h
    split_ifs at h
    obtain rfl := Option.some.inj h
    exact ⟨rfl, rfl, rfl, fun k => by simp [eq_comm]⟩

theorem Through.at {fork : Option Nat} (h : s.Through fork t) (hs : s.At text) : t.At text := by
  refine ⟨?_, ?_⟩
  · rw [h.position]
    exact hs.position_le
  · rw [h.rest, h.position]
    exact hs.rest_eq

structure Encloses (start : Nat) (s : Progress) : Prop where
  le_position : start ≤ s.position
  groups : ∀ g, some g ∈ s.groups → start ≤ g.start ∧ g.start ≤ g.stop ∧ g.stop ≤ s.position

theorem Encloses.mono {start : Nat} (h : s.Encloses start) (hle : s.position ≤ t.position)
    (hgroups : ∀ g, some g ∈ t.groups →
      some g ∈ s.groups ∨ start ≤ g.start ∧ g.start ≤ g.stop ∧
        g.stop ≤ t.position) : t.Encloses start := by
  refine ⟨h.le_position.trans hle, fun g hg => ?_⟩
  rcases hgroups g hg with hold | hnew
  · obtain ⟨hstart, horder, hstop⟩ := h.groups g hold
    exact ⟨hstart, horder, hstop.trans hle⟩
  · exact hnew

theorem Through.encloses {fork : Option Nat} {start : Nat} (h : s.Through fork t)
    (hs : s.Encloses start) : t.Encloses start :=
  hs.mono h.position.ge fun _ hg => .inl (h.groups ▸ hg)

end Progress

namespace Pattern

/-- The pattern describes the part of the text between two positions; nothing is said about which
part it prefers. -/
def Covers (text : List Char) : Pattern → Nat → Nat → Prop
  | empty, i, j => i = j
  | one set, i, j => text[i]?.any set.holds ∧ i + 1 = j
  | textStart, i, j => i = 0 ∧ i = j
  | textEnd, i, j => i = text.length ∧ i = j
  | seq p q, i, j => ∃ k, p.Covers text i k ∧ q.Covers text k j
  | alt p q, i, j => p.Covers text i j ∨ q.Covers text i j
  | group _ p, i, j => p.Covers text i j
  | loop _ _ p, i, j => Relation.TransGen (p.Covers text) i j
  | star _ _ p, i, j => Relation.ReflTransGen (p.Covers text) i j
  | once _ p, i, j => p.Covers text i j

variable {text : List Char} {p : Pattern} {i j n : Nat} {s t u : Progress} {fork : Option Nat}
  {greedy : Bool}

theorem Covers.le (h : p.Covers text i j) : i ≤ j := by
  induction p generalizing i j with
  | empty => exact h.le
  | one set => exact Nat.le.intro h.2
  | textStart | textEnd => exact h.2.le
  | seq p q hp hq =>
    obtain ⟨k, hk, hj⟩ := h
    exact (hp hk).trans (hq hj)
  | alt p q hp hq => exact h.elim hp hq
  | group _ p hp => exact hp h
  | loop _ _ p hp =>
    rw [Covers] at h
    induction h with
    | single h => exact hp h
    | tail _ hlast ih => exact ih.trans (hp hlast)
  | star _ _ p hp =>
    rw [Covers] at h
    induction h with
    | refl => exact le_rfl
    | tail _ hlast ih => exact ih.trans (hp hlast)
  | once _ p hp => exact hp h

/-- What a loop comes to from its fork: it stops, or goes on from where a round ends that has taken
something. -/
inductive Further (fork : Option Nat) (body : Progress → List Progress) :
    Progress → Progress → Prop
  | stop {s here : Progress} (pass : s.pass? fork = some here) : Further fork body s here
  | round {s here t u : Progress} (pass : s.pass? fork = some here) (mem : t ∈ body here)
      (lt : t.rest.length < s.rest.length) (later : Further fork body t u) : Further fork body s u

section Rounds

variable {body : Progress → List Progress}

theorem mem_moreOutcomes_of_pass? {here : Progress} (h : s.pass? fork = some here) :
    t ∈ moreOutcomes fork greedy body s ↔ t = here ∨
      ∃ u ∈ body here, u.rest.length < s.rest.length ∧ t ∈ moreOutcomes fork greedy body u := by
  have hagain : (t ∈ (body here).flatMap fun u =>
      if u.rest.length < s.rest.length then moreOutcomes fork greedy body u else []) ↔
      ∃ u ∈ body here, u.rest.length < s.rest.length ∧ t ∈ moreOutcomes fork greedy body u := by
    rw [List.mem_flatMap]
    refine exists_congr fun u => and_congr_right fun _ => ?_
    split_ifs with hlt <;> simp [hlt]
  rw [moreOutcomes, h, Option.elim_some, ← hagain]
  cases greedy <;> simp [or_comm]

theorem mem_moreOutcomes : t ∈ moreOutcomes fork greedy body s ↔ Further fork body s t := by
  induction hn : s.rest.length using Nat.strongRecOn generalizing s with
  | ind n ih =>
    subst hn
    cases hpass : s.pass? fork with
    | none =>
      rw [moreOutcomes, hpass]
      refine iff_of_false List.not_mem_nil ?_
      rintro (h | ⟨h, -, -, -⟩) <;> exact Option.some_ne_none _ (h.symm.trans hpass)
    | some here =>
      rw [mem_moreOutcomes_of_pass? hpass]
      constructor
      · rintro (rfl | ⟨u, hu, hlt, ht⟩)
        · exact .stop hpass
        · exact .round hpass hu hlt ((ih _ hlt rfl).mp ht)
      · rintro (h | ⟨h, hu, hlt, hlater⟩)
        · exact .inl (Option.some.inj (h.symm.trans hpass))
        · obtain rfl := Option.some.inj (h.symm.trans hpass)
          exact .inr ⟨_, hu, hlt, (ih _ hlt rfl).mpr hlater⟩

theorem mem_outcomes_loop : t ∈ (loop fork greedy p).outcomes s ↔
    ∃ u ∈ p.outcomes s, Further fork p.outcomes u t := by
  simp only [outcomes, List.mem_flatMap, mem_moreOutcomes]

theorem mem_outcomes_star : t ∈ (star fork greedy p).outcomes s ↔ Further fork p.outcomes s t := by
  rw [outcomes, mem_moreOutcomes]

theorem mem_outcomes_once {k : Nat} : t ∈ (once k p).outcomes s ↔
    ∃ here, s.pass? (some k) = some here ∧ t ∈ p.outcomes here := by
  rw [outcomes]
  cases s.pass? (some k) <;> simp

/-- What holds of the rounds of a loop holds of what they come to. -/
theorem Further.reflTransGen {R : Nat → Nat → Prop} (h : Further fork body s t) (hs : s.At text)
    (hbody : ∀ {s t : Progress}, s.At text → t ∈ body s → t.At text ∧ R s.position t.position) :
    t.At text ∧ Relation.ReflTransGen R s.position t.position := by
  induction h with
  | stop pass =>
    have hthrough := Progress.through_of_pass? pass
    rw [hthrough.position]
    exact ⟨hthrough.at hs, .refl⟩
  | round pass mem _ _ ih =>
    have hthrough := Progress.through_of_pass? pass
    obtain ⟨hat, hround⟩ := hbody (hthrough.at hs) mem
    rw [hthrough.position] at hround
    exact (ih hat).imp_right (.head hround)

theorem Further.encloses (h : Further fork body s t) (hs : s.Encloses n)
    (hbody : ∀ {s t : Progress}, s.Encloses n → t ∈ body s →
      s.position ≤ t.position ∧ t.Encloses n) : s.position ≤ t.position ∧ t.Encloses n := by
  induction h with
  | stop pass =>
    have hthrough := Progress.through_of_pass? pass
    exact ⟨hthrough.position.ge, hthrough.encloses hs⟩
  | round pass mem _ _ ih =>
    have hthrough := Progress.through_of_pass? pass
    obtain ⟨hround, hu⟩ := hbody (hthrough.encloses hs) mem
    obtain ⟨hlater, ht⟩ := ih hu
    exact ⟨(hthrough.position.ge.trans hround).trans hlater, ht⟩

end Rounds

/-- Every outcome stands in the text, and the pattern describes what was taken. -/
theorem covers_of_mem_outcomes (hs : s.At text) (h : t ∈ p.outcomes s) :
    t.At text ∧ p.Covers text s.position t.position := by
  induction p generalizing s t with
  | empty =>
    rw [outcomes, List.mem_singleton] at h
    subst h
    exact ⟨hs, rfl⟩
  | one set =>
    rw [outcomes, hs.head?_rest] at h
    split_ifs at h with hset
    · rw [List.mem_singleton.mp h]
      obtain ⟨c, hc⟩ := Option.isSome_iff_exists.mp (Option.isSome_of_any hset)
      exact ⟨hs.advance_one hc, hset, rfl⟩
    · exact absurd h List.not_mem_nil
  | textStart =>
    rw [outcomes] at h
    split_ifs at h with hstart
    · rw [List.mem_singleton.mp h]
      exact ⟨hs, hstart, rfl⟩
    · exact absurd h List.not_mem_nil
  | textEnd =>
    rw [outcomes] at h
    split_ifs at h with hend
    · rw [List.mem_singleton.mp h]
      exact ⟨hs, hs.isEmpty_rest_iff.mp hend, rfl⟩
    · exact absurd h List.not_mem_nil
  | seq p q hp hq =>
    obtain ⟨u, hu, ht⟩ := List.mem_flatMap.mp h
    obtain ⟨hu, hfirst⟩ := hp hs hu
    obtain ⟨ht, hsecond⟩ := hq hu ht
    exact ⟨ht, u.position, hfirst, hsecond⟩
  | alt p q hp hq =>
    rcases List.mem_append.mp h with h | h
    · exact (hp hs h).imp_right .inl
    · exact (hq hs h).imp_right .inr
  | group i p hp =>
    obtain ⟨u, hu, rfl⟩ := List.mem_map.mp h
    obtain ⟨⟨hle, hrest⟩, hcovers⟩ := hp hs hu
    exact ⟨⟨hle, hrest⟩, hcovers⟩
  | loop fork greedy p hp =>
    obtain ⟨u, hu, hlater⟩ := mem_outcomes_loop.mp h
    obtain ⟨hat, hround⟩ := hp hs hu
    exact (hlater.reflTransGen hat hp).imp_right (.head' hround)
  | star fork greedy p hp => exact (mem_outcomes_star.mp h).reflTransGen hs hp
  | once k p hp =>
    obtain ⟨here, hpass, ht⟩ := mem_outcomes_once.mp h
    have hthrough := Progress.through_of_pass? hpass
    have hcovers := hp (hthrough.at hs) ht
    rwa [hthrough.position] at hcovers

/-- The groups of an outcome lie where those before it do, or in what was taken since. -/
theorem encloses_of_mem_outcomes (hs : s.Encloses n) (h : t ∈ p.outcomes s) :
    s.position ≤ t.position ∧ t.Encloses n := by
  induction p generalizing s t with
  | empty =>
    rw [outcomes, List.mem_singleton] at h
    subst h
    exact ⟨le_rfl, hs⟩
  | one set =>
    rw [outcomes] at h
    split_ifs at h
    · rw [List.mem_singleton.mp h]
      exact ⟨Nat.le_succ _, hs.mono (Nat.le_succ _) fun g hg => .inl hg⟩
    · exact absurd h List.not_mem_nil
  | textStart | textEnd =>
    rw [outcomes] at h
    split_ifs at h
    · rw [List.mem_singleton.mp h]
      exact ⟨le_rfl, hs⟩
    · exact absurd h List.not_mem_nil
  | seq p q hp hq =>
    obtain ⟨u, hu, ht⟩ := List.mem_flatMap.mp h
    obtain ⟨hfirst, hu⟩ := hp hs hu
    obtain ⟨hsecond, ht⟩ := hq hu ht
    exact ⟨hfirst.trans hsecond, ht⟩
  | alt p q hp hq => exact (List.mem_append.mp h).elim (hp hs) (hq hs)
  | group i p hp =>
    obtain ⟨u, hu, rfl⟩ := List.mem_map.mp h
    obtain ⟨hle, hu⟩ := hp hs hu
    refine ⟨hle, hu.mono le_rfl fun g hg => ?_⟩
    rcases List.mem_or_eq_of_mem_set hg with hg | hg
    · exact .inl hg
    · obtain rfl := Option.some.inj hg
      exact .inr ⟨hs.le_position, hle, le_rfl⟩
  | loop fork greedy p hp =>
    obtain ⟨u, hu, hlater⟩ := mem_outcomes_loop.mp h
    obtain ⟨hfirst, hu⟩ := hp hs hu
    obtain ⟨hmore, ht⟩ := hlater.encloses hu hp
    exact ⟨hfirst.trans hmore, ht⟩
  | star fork greedy p hp => exact (mem_outcomes_star.mp h).encloses hs hp
  | once k p hp =>
    obtain ⟨here, hpass, ht⟩ := mem_outcomes_once.mp h
    have hthrough := Progress.through_of_pass? hpass
    have hresult := hp (hthrough.encloses hs) ht
    rwa [hthrough.position] at hresult

end Pattern

end MigrationAudit
