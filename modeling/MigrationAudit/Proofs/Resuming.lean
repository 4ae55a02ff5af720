import MigrationAudit.Proofs.Covering
import Mathlib.Data.List.Nodup

namespace MigrationAudit

def Rounds (R : Nat → Nat → Prop) : (n : Nat) → Nat → Nat → Prop
  | 0, i, j => i = j
  | n + 1, i, j => ∃ m, R i m ∧ Rounds R n m j

section Rounds

variable {R : Nat → Nat → Prop} {n i j : Nat}

theorem Rounds.reflTransGen (h : Rounds R n i j) : Relation.ReflTransGen R i j := by
  induction n generalizing i with
  | zero =>
    obtain rfl := h
    exact .refl
  | succ n ih =>
    obtain ⟨m, hround, hrounds⟩ := h
    exact .head hround (ih hrounds)

theorem exists_rounds (h : Relation.ReflTransGen R i j) : ∃ n, Rounds R n i j := by
  induction h using Relation.ReflTransGen.head_induction_on with
  | refl => exact ⟨0, rfl⟩
  | head hround _ ih =>
    obtain ⟨n, hrounds⟩ := ih
    exact ⟨n + 1, _, hround, hrounds⟩

end Rounds

namespace Pattern

def forks : Pattern → List Nat
  | empty | one _ | textStart | textEnd => []
  | seq p q | alt p q => p.forks ++ q.forks
  | group _ p => p.forks
  | loop fork _ p | star fork _ p => fork.toList ++ p.forks
  | once k p => k :: p.forks

/-- What is left of the pattern at the fork `k` describes the part of the text between two
positions. -/
def Resumes (text : List Char) (k : Nat) : Pattern → Nat → Nat → Prop
  | empty, _, _ | one _, _, _ | textStart, _, _ | textEnd, _, _ => False
  | seq p q, i, j => (∃ m, p.Resumes text k i m ∧ q.Covers text m j) ∨ q.Resumes text k i j
  | alt p q, i, j => p.Resumes text k i j ∨ q.Resumes text k i j
  | group _ p, i, j => p.Resumes text k i j
  | loop fork _ p, i, j | star fork _ p, i, j =>
    fork = some k ∧ Relation.ReflTransGen (p.Covers text) i j ∨
      ∃ m, p.Resumes text k i m ∧ Relation.ReflTransGen (p.Covers text) m j
  | once n p, i, j => n = k ∧ p.Covers text i j ∨ p.Resumes text k i j

variable {text : List Char} {p q : Pattern} {i j k n : Nat} {s t u : Progress} {fork : Option Nat}
  {greedy : Bool}

theorem Resumes.mem_forks (h : p.Resumes text k i j) : k ∈ p.forks := by
  induction p generalizing i j with
  | empty | one _ | textStart | textEnd => exact h.elim
  | seq p q hp hq =>
    rcases h with ⟨m, h, -⟩ | h
    · exact List.mem_append_left _ (hp h)
    · exact List.mem_append_right _ (hq h)
  | alt p q hp hq =>
    rcases h with h | h
    · exact List.mem_append_left _ (hp h)
    · exact List.mem_append_right _ (hq h)
  | group _ p hp => exact hp h
  | loop fork _ p hp | star fork _ p hp =>
    rcases h with ⟨rfl, -⟩ | ⟨m, h, -⟩
    · exact List.mem_append_left _ (List.mem_singleton_self k)
    · exact List.mem_append_right _ (hp h)
  | once n p hp =>
    rcases h with ⟨rfl, -⟩ | h
    · exact List.mem_cons_self
    · exact List.mem_cons_of_mem n (hp h)

theorem nodup_forks_loop (h : (fork.toList ++ p.forks).Nodup) :
    p.forks.Nodup ∧ ∀ k ∈ p.forks, fork ≠ some k := by
  obtain ⟨-, hp, hdisjoint⟩ := List.nodup_append'.mp h
  refine ⟨hp, ?_⟩
  rintro k hk rfl
  exact hdisjoint (List.mem_singleton_self k) hk

/-- A fork that has been passed at an outcome had been so before, and nothing has been taken since;
or it is the pattern's own, and what is left there completes what has been taken. -/
def Accounts (text : List Char) (p : Pattern) (s t : Progress) (k : Nat) : Prop :=
  k ∈ s.passed ∧ t.position = s.position ∨
    k ∈ p.forks ∧ ∀ j, p.Resumes text k t.position j → p.Covers text s.position j

section Loop

variable (hfork : ∀ k ∈ p.forks, fork ≠ some k)
  (hbody : ∀ {s t : Progress}, s.At text → t ∈ p.outcomes s → ∀ k ∈ t.passed, p.Accounts text s t k)
include hfork hbody

theorem Further.accounts (greedy : Bool) (h : Further fork p.outcomes s t) (hs : s.At text) :
    ∀ k ∈ t.passed, (star fork greedy p).Accounts text s t k := by
  induction h with
  | stop pass =>
    intro k hk
    have hthrough := Progress.through_of_pass? pass
    rcases (hthrough.passed k).mp hk with rfl | hk
    · refine .inr ⟨List.mem_append_left _ (List.mem_singleton_self k), fun j h => ?_⟩
      rw [hthrough.position] at h
      rcases h with ⟨-, h⟩ | ⟨m, h, -⟩
      · exact h
      · exact absurd rfl (hfork k h.mem_forks)
    · exact .inl ⟨hk, hthrough.position⟩
  | @round s here t u pass mem lt _ ih =>
    intro k hk
    have hthrough := Progress.through_of_pass? pass
    have hhere := hthrough.at hs
    obtain ⟨ht, hround⟩ := covers_of_mem_outcomes hhere mem
    rw [hthrough.position] at hround
    rcases ih ht k hk with ⟨hk, hplace⟩ | ⟨hforks, hcomplete⟩
    · rcases hbody hhere mem k hk with ⟨-, hsame⟩ | ⟨hforks, hcomplete⟩
      · rw [hs.length_lt_iff ht, hsame, hthrough.position] at lt
        exact absurd lt (lt_irrefl _)
      · refine .inr ⟨List.mem_append_right _ hforks, fun j h => ?_⟩
        rw [hplace] at h
        rw [hthrough.position] at hcomplete
        rcases h with ⟨h, -⟩ | ⟨m, h, hlater⟩
        · exact absurd h (hfork k hforks)
        · exact .head (hcomplete m h) hlater
    · exact .inr ⟨hforks, fun j h => .head hround (hcomplete j h)⟩

end Loop

theorem accounts_of_mem_outcomes (hp : p.forks.Nodup) (hs : s.At text) (h : t ∈ p.outcomes s) :
    ∀ k ∈ t.passed, p.Accounts text s t k := by
  induction p generalizing s t with
  | empty =>
    obtain rfl := List.mem_singleton.mp h
    exact fun k hk => .inl ⟨hk, rfl⟩
  | one set =>
    rw [outcomes] at h
    split_ifs at h
    · rw [List.mem_singleton.mp h]
      exact fun k hk => absurd hk List.not_mem_nil
    · exact absurd h List.not_mem_nil
  | textStart | textEnd =>
    rw [outcomes] at h
    split_ifs at h
    · rw [List.mem_singleton.mp h]
      exact fun k hk => .inl ⟨hk, rfl⟩
    · exact absurd h List.not_mem_nil
  | seq p q ihp ihq =>
    obtain ⟨hp, hq, hdisjoint⟩ := List.nodup_append'.mp hp
    obtain ⟨u, hu, ht⟩ := List.mem_flatMap.mp h
    obtain ⟨hat, hfirst⟩ := covers_of_mem_outcomes hs hu
    intro k hk
    rcases ihq hq hat ht k hk with ⟨hk, hplace⟩ | ⟨hforks, hcomplete⟩
    · rcases ihp hp hs hu k hk with ⟨hk, hsame⟩ | ⟨hforks, hcomplete⟩
      · exact .inl ⟨hk, hplace.trans hsame⟩
      · refine .inr ⟨List.mem_append_left _ hforks, fun j h => ?_⟩
        rw [hplace] at h
        rcases h with ⟨m, h, hsecond⟩ | h
        · exact ⟨m, hcomplete m h, hsecond⟩
        · exact absurd h.mem_forks (hdisjoint hforks)
    · refine .inr ⟨List.mem_append_right _ hforks, fun j h => ?_⟩
      rcases h with ⟨m, h, -⟩ | h
      · exact absurd hforks (hdisjoint h.mem_forks)
      · exact ⟨u.position, hfirst, hcomplete j h⟩
  | alt p q ihp ihq =>
    obtain ⟨hp, hq, hdisjoint⟩ := List.nodup_append'.mp hp
    intro k hk
    rcases List.mem_append.mp h with h | h
    · refine (ihp hp hs h k hk).imp_right fun howned => ?_
      obtain ⟨hforks, hcomplete⟩ := howned
      refine ⟨List.mem_append_left _ hforks, fun j h => ?_⟩
      rcases h with h | h
      · exact .inl (hcomplete j h)
      · exact absurd h.mem_forks (hdisjoint hforks)
    · refine (ihq hq hs h k hk).imp_right fun howned => ?_
      obtain ⟨hforks, hcomplete⟩ := howned
      refine ⟨List.mem_append_right _ hforks, fun j h => ?_⟩
      rcases h with h | h
      · exact absurd hforks (hdisjoint h.mem_forks)
      · exact .inr (hcomplete j h)
  | group i p ihp =>
    obtain ⟨u, hu, rfl⟩ := List.mem_map.mp h
    intro k hk
    exact ihp hp hs hu k hk
  | loop fork greedy p ihp =>
    obtain ⟨hp, hfork⟩ := nodup_forks_loop hp
    obtain ⟨u, hu, hlater⟩ := mem_outcomes_loop.mp h
    obtain ⟨hat, hround⟩ := covers_of_mem_outcomes hs hu
    intro k hk
    rcases Further.accounts hfork (ihp hp) greedy hlater hat k hk with
      ⟨hk, hplace⟩ | ⟨hforks, hcomplete⟩
    · rcases ihp hp hs hu k hk with ⟨hk, hsame⟩ | ⟨hforks, hcomplete⟩
      · exact .inl ⟨hk, hplace.trans hsame⟩
      · refine .inr ⟨List.mem_append_right _ hforks, fun j h => ?_⟩
        rw [hplace] at h
        rcases h with ⟨h, -⟩ | ⟨m, h, hmore⟩
        · exact absurd h (hfork k hforks)
        · exact .head' (hcomplete m h) hmore
    · exact .inr ⟨hforks, fun j h => .head' hround (hcomplete j h)⟩
  | star fork greedy p ihp =>
    obtain ⟨hp, hfork⟩ := nodup_forks_loop hp
    exact Further.accounts hfork (ihp hp) greedy (mem_outcomes_star.mp h) hs
  | once n p ihp =>
    obtain ⟨hn, hp⟩ := List.nodup_cons.mp hp
    obtain ⟨here, hpass, ht⟩ := mem_outcomes_once.mp h
    have hthrough := Progress.through_of_pass? hpass
    have hcovers := (covers_of_mem_outcomes (hthrough.at hs) ht).2
    intro k hk
    have haccounts := ihp hp (hthrough.at hs) ht k hk
    rw [Accounts, hthrough.position, hthrough.passed] at haccounts
    rcases haccounts with ⟨hk | hk, hplace⟩ | ⟨hforks, hcomplete⟩
    · obtain rfl := Option.some.inj hk
      refine .inr ⟨List.mem_cons_self, fun j h => ?_⟩
      rw [hplace] at h
      rcases h with ⟨-, h⟩ | h
      · exact h
      · exact absurd h.mem_forks hn
    · exact .inl ⟨hk, hplace⟩
    · refine .inr ⟨List.mem_cons_of_mem n hforks, fun j h => ?_⟩
      rcases h with ⟨rfl, -⟩ | h
      · exact absurd hforks hn
      · exact hcomplete j h

/-- There is an outcome that ends at `j`, or a fork that has been passed at this place leads
there. -/
def Leads (text : List Char) (p : Pattern) (s : Progress) (j : Nat) : Prop :=
  (∃ t ∈ p.outcomes s, t.position = j) ∨ ∃ k ∈ s.passed, p.Resumes text k s.position j

section Loop

variable (hp : p.forks.Nodup) (hfork : ∀ k ∈ p.forks, fork ≠ some k)
  (hbody : ∀ {s : Progress} {j : Nat}, s.At text → p.Covers text s.position j → p.Leads text s j)
include hp hfork hbody

/-- A round that is stopped at a fork which the round before it has passed makes up one round with
it, so what has to be said is said of the least number of rounds. -/
theorem further_of_rounds (hs : s.At text) (h : Rounds (p.Covers text) n s.position j) :
    (∃ t, Further fork p.outcomes s t ∧ t.position = j) ∨ (∃ k ∈ s.passed, fork = some k) ∨
      ∃ k ∈ s.passed, ∃ m, p.Resumes text k s.position m ∧
        ∃ n' < n, Rounds (p.Covers text) n' m j := by
  induction n using Nat.strongRecOn generalizing s with
  | ind n ih =>
    cases hpass : s.pass? fork with
    | none => exact .inr (.inl (Progress.pass?_eq_none hpass))
    | some here =>
      have hthrough := Progress.through_of_pass? hpass
      have hhere := hthrough.at hs
      cases n with
      | zero => exact .inl ⟨here, .stop hpass, hthrough.position.trans h⟩
      | succ n =>
        obtain ⟨m, hround, hrounds⟩ := h
        rcases hround.le.eq_or_lt with rfl | hlt
        · refine (ih n (Nat.lt_succ_self n) hs hrounds).imp_right (Or.imp_right ?_)
          rintro ⟨k, hk, m, hresumes, n', hn', hlater⟩
          exact ⟨k, hk, m, hresumes, n', hn'.trans (Nat.lt_succ_self n), hlater⟩
        rw [← hthrough.position] at hround
        rcases hbody hhere hround with ⟨u, hu, rfl⟩ | ⟨k, hk, hresumes⟩
        · obtain ⟨hat, -⟩ := covers_of_mem_outcomes hhere hu
          have hlength := (hs.length_lt_iff hat).mpr hlt
          have hmoved : u.position ≠ here.position := by
            rw [hthrough.position]
            exact hlt.ne'
          rcases ih n (Nat.lt_succ_self n) hat hrounds with
            ⟨t, ht, hend⟩ | ⟨k, hk, hpassed⟩ | ⟨k, hk, m, hresumes, n', hn', hlater⟩
          · exact .inl ⟨t, .round hpass hu hlength ht, hend⟩
          · rcases accounts_of_mem_outcomes hp hhere hu k hk with ⟨-, hsame⟩ | ⟨hforks, -⟩
            · exact absurd hsame hmoved
            · exact absurd hpassed (hfork k hforks)
          · rcases accounts_of_mem_outcomes hp hhere hu k hk with ⟨-, hsame⟩ | ⟨-, hcomplete⟩
            · exact absurd hsame hmoved
            · have hjoined := hcomplete m hresumes
              rw [hthrough.position] at hjoined
              refine (ih (n' + 1) (Nat.succ_lt_succ hn') hs ⟨m, hjoined, hlater⟩).imp_right
                (Or.imp_right ?_)
              rintro ⟨k, hk, m, hresumes, l, hl, hrest⟩
              exact ⟨k, hk, m, hresumes, l, hl.trans (Nat.succ_lt_succ hn'), hrest⟩
        · rw [hthrough.position] at hresumes
          rcases (hthrough.passed k).mp hk with hk | hk
          · exact absurd hk (hfork k hresumes.mem_forks)
          · exact .inr (.inr ⟨k, hk, m, hresumes, n, Nat.lt_succ_self n, hrounds⟩)

theorem leads_star (hs : s.At text) (h : Relation.ReflTransGen (p.Covers text) s.position j) :
    (star fork greedy p).Leads text s j := by
  obtain ⟨n, hrounds⟩ := exists_rounds h
  rcases further_of_rounds hp hfork hbody hs hrounds with
    ⟨t, ht, hend⟩ | ⟨k, hk, hpassed⟩ | ⟨k, hk, m, hresumes, n', -, hlater⟩
  · exact .inl ⟨t, mem_outcomes_star.mpr ht, hend⟩
  · exact .inr ⟨k, hk, .inl ⟨hpassed, h⟩⟩
  · exact .inr ⟨k, hk, .inr ⟨m, hresumes, hlater.reflTransGen⟩⟩

theorem leads_loop (hs : s.At text) (h : Rounds (p.Covers text) (n + 1) s.position j) :
    (loop fork greedy p).Leads text s j := by
  induction n using Nat.strongRecOn generalizing s with
  | ind n ih =>
    obtain ⟨m, hround, hrounds⟩ := h
    rcases hbody hs hround with ⟨u, hu, rfl⟩ | ⟨k, hk, hresumes⟩
    · obtain ⟨hat, -⟩ := covers_of_mem_outcomes hs hu
      rcases further_of_rounds hp hfork hbody hat hrounds with
        ⟨t, ht, hend⟩ | ⟨k, hk, hpassed⟩ | ⟨k, hk, m, hresumes, n', hn', hlater⟩
      · exact .inl ⟨t, mem_outcomes_loop.mpr ⟨u, hu, ht⟩, hend⟩
      · rcases accounts_of_mem_outcomes hp hs hu k hk with ⟨hk, hsame⟩ | ⟨hforks, -⟩
        · rw [hsame] at hrounds
          exact .inr ⟨k, hk, .inl ⟨hpassed, hrounds.reflTransGen⟩⟩
        · exact absurd hpassed (hfork k hforks)
      · rcases accounts_of_mem_outcomes hp hs hu k hk with ⟨hk, hsame⟩ | ⟨-, hcomplete⟩
        · rw [hsame] at hresumes
          exact .inr ⟨k, hk, .inr ⟨m, hresumes, hlater.reflTransGen⟩⟩
        · exact ih n' hn' hs ⟨m, hcomplete m hresumes, hlater⟩
    · exact .inr ⟨k, hk, .inr ⟨m, hresumes, hrounds.reflTransGen⟩⟩

end Loop

theorem leads_of_covers (hp : p.forks.Nodup) (hs : s.At text) (h : p.Covers text s.position j) :
    p.Leads text s j := by
  induction p generalizing s j with
  | empty => exact .inl ⟨s, List.mem_singleton_self s, h⟩
  | one set =>
    obtain ⟨hset, rfl⟩ := h
    refine .inl ⟨s.advance 1, ?_, rfl⟩
    rw [outcomes, hs.head?_rest, if_pos hset]
    exact List.mem_singleton_self _
  | textStart =>
    obtain ⟨hstart, hj⟩ := h
    refine .inl ⟨s, ?_, hj⟩
    rw [outcomes, if_pos hstart]
    exact List.mem_singleton_self s
  | textEnd =>
    obtain ⟨hend, hj⟩ := h
    refine .inl ⟨s, ?_, hj⟩
    rw [outcomes, if_pos (hs.isEmpty_rest_iff.mpr hend)]
    exact List.mem_singleton_self s
  | seq p q ihp ihq =>
    obtain ⟨hp, hq, hdisjoint⟩ := List.nodup_append'.mp hp
    obtain ⟨m, hfirst, hsecond⟩ := h
    rcases ihp hp hs hfirst with ⟨u, hu, rfl⟩ | ⟨k, hk, hresumes⟩
    · obtain ⟨hat, -⟩ := covers_of_mem_outcomes hs hu
      rcases ihq hq hat hsecond with ⟨t, ht, hend⟩ | ⟨k, hk, hresumes⟩
      · exact .inl ⟨t, List.mem_flatMap.mpr ⟨u, hu, ht⟩, hend⟩
      · rcases accounts_of_mem_outcomes hp hs hu k hk with ⟨hk, hsame⟩ | ⟨hforks, -⟩
        · rw [hsame] at hresumes
          exact .inr ⟨k, hk, .inr hresumes⟩
        · exact absurd hresumes.mem_forks (hdisjoint hforks)
    · exact .inr ⟨k, hk, .inl ⟨m, hresumes, hsecond⟩⟩
  | alt p q ihp ihq =>
    obtain ⟨hp, hq, -⟩ := List.nodup_append'.mp hp
    rcases h with h | h
    · rcases ihp hp hs h with ⟨t, ht, hend⟩ | ⟨k, hk, hresumes⟩
      · exact .inl ⟨t, List.mem_append_left _ ht, hend⟩
      · exact .inr ⟨k, hk, .inl hresumes⟩
    · rcases ihq hq hs h with ⟨t, ht, hend⟩ | ⟨k, hk, hresumes⟩
      · exact .inl ⟨t, List.mem_append_right _ ht, hend⟩
      · exact .inr ⟨k, hk, .inr hresumes⟩
  | group i p ihp =>
    rcases ihp hp hs h with ⟨t, ht, hend⟩ | hresumes
    · exact .inl ⟨_, List.mem_map_of_mem ht, hend⟩
    · exact .inr hresumes
  | loop fork greedy p ihp =>
    obtain ⟨hp, hfork⟩ := nodup_forks_loop hp
    obtain ⟨m, hround, hmore⟩ := Relation.TransGen.head'_iff.mp h
    obtain ⟨n, hrounds⟩ := exists_rounds hmore
    exact leads_loop hp hfork (ihp hp) hs ⟨m, hround, hrounds⟩
  | star fork greedy p ihp =>
    obtain ⟨hp, hfork⟩ := nodup_forks_loop hp
    exact leads_star hp hfork (ihp hp) hs h
  | once n p ihp =>
    obtain ⟨hn, hp⟩ := List.nodup_cons.mp hp
    cases hpass : s.pass? (some n) with
    | none =>
      obtain ⟨k, hk, hn⟩ := Progress.pass?_eq_none hpass
      exact .inr ⟨k, hk, .inl ⟨Option.some.inj hn, h⟩⟩
    | some here =>
      have hthrough := Progress.through_of_pass? hpass
      rw [← hthrough.position] at h
      rcases ihp hp (hthrough.at hs) h with ⟨t, ht, hend⟩ | ⟨k, hk, hresumes⟩
      · exact .inl ⟨t, mem_outcomes_once.mpr ⟨here, hpass, ht⟩, hend⟩
      · rw [hthrough.position] at hresumes
        rcases (hthrough.passed k).mp hk with hk | hk
        · obtain rfl := Option.some.inj hk
          exact absurd hresumes.mem_forks hn
        · exact .inr ⟨k, hk, .inr hresumes⟩

/-- Where no fork has been passed, every part that the pattern describes is taken in some
outcome. -/
theorem exists_outcome_of_covers (hp : p.forks.Nodup) (hs : s.At text) (hpassed : s.passed = [])
    (h : p.Covers text s.position j) : ∃ t ∈ p.outcomes s, t.position = j := by
  rcases leads_of_covers hp hs h with h | ⟨k, hk, -⟩
  · exact h
  · rw [hpassed] at hk
    exact absurd hk List.not_mem_nil

end Pattern

end MigrationAudit
