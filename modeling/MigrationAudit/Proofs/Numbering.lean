import MigrationAudit.Proofs.Fences

namespace MigrationAudit

def Progress.forget (s : Progress) : Progress := { s with passed := [] }

namespace Pattern

/-- The forks that can be met before a character is taken, as far as its form tells. -/
def leading : Pattern → List Nat
  | empty | one _ | textStart | textEnd => []
  | seq p q => p.leading ++ if p.canBeEmpty then q.leading else []
  | alt p q => p.leading ++ q.leading
  | group _ p => p.leading
  | loop fork _ p => (if p.canBeEmpty then fork.toList else []) ++ p.leading
  | star fork _ p => fork.toList ++ p.leading
  | once k p => k :: p.leading

/-- The forks after which no character need be taken, as far as its form tells. -/
def trailing : Pattern → List Nat
  | empty | one _ | textStart | textEnd => []
  | seq p q => (if q.canBeEmpty then p.trailing else []) ++ q.trailing
  | alt p q => p.trailing ++ q.trailing
  | group _ p => p.trailing
  | loop fork _ p | star fork _ p => fork.toList ++ p.trailing
  | once k p => (if p.canBeEmpty then [k] else []) ++ p.trailing

variable {p q : Pattern} {k n : Nat} {s t u : Progress} {fork : Option Nat} {greedy : Bool}
  {text : List Char}

theorem leading_sublist_forks (p : Pattern) : p.leading.Sublist p.forks := by
  induction p with
  | empty | one _ | textStart | textEnd => exact .slnil
  | seq p q hp hq =>
    refine hp.append ?_
    split_ifs
    · exact hq
    · exact List.nil_sublist _
  | alt p q hp hq => exact hp.append hq
  | group _ p hp => exact hp
  | loop fork _ p hp =>
    refine List.Sublist.append ?_ hp
    split_ifs
    · exact List.Sublist.refl _
    · exact List.nil_sublist _
  | star fork _ p hp => exact (List.Sublist.refl _).append hp
  | once k p hp => exact hp.cons_cons k

theorem trailing_sublist_forks (p : Pattern) : p.trailing.Sublist p.forks := by
  induction p with
  | empty | one _ | textStart | textEnd => exact .slnil
  | seq p q hp hq =>
    refine List.Sublist.append ?_ hq
    split_ifs
    · exact hp
    · exact List.nil_sublist _
  | alt p q hp hq => exact hp.append hq
  | group _ p hp => exact hp
  | loop fork _ p hp | star fork _ p hp => exact (List.Sublist.refl _).append hp
  | once k p hp =>
    rw [trailing]
    split_ifs
    · exact hp.cons_cons k
    · exact hp.cons k

theorem mem_forks_of_leading (h : k ∈ p.leading) : k ∈ p.forks :=
  (leading_sublist_forks p).subset h

theorem mem_forks_of_trailing (h : k ∈ p.trailing) : k ∈ p.forks :=
  (trailing_sublist_forks p).subset h

/-- A way from the start to a fork and one from there to the end make up a way that takes
nothing. -/
theorem canBeEmpty_of_mem (hp : p.forks.Nodup) (h : k ∈ p.leading) (h' : k ∈ p.trailing) :
    p.canBeEmpty := by
  induction p with
  | empty | one _ | textStart | textEnd => exact absurd h List.not_mem_nil
  | seq p q ihp ihq =>
    obtain ⟨hp, hq, hdisjoint⟩ := List.nodup_append'.mp hp
    rw [leading, List.mem_append, List.mem_ite_nil_right] at h
    rw [trailing, List.mem_append, List.mem_ite_nil_right] at h'
    rw [canBeEmpty, Bool.and_eq_true]
    rcases h with h | ⟨hempty, h⟩
    · rcases h' with ⟨hempty, h'⟩ | h'
      · exact ⟨ihp hp h h', hempty⟩
      · exact absurd (mem_forks_of_trailing h') (hdisjoint (mem_forks_of_leading h))
    · rcases h' with ⟨-, h'⟩ | h'
      · exact absurd (mem_forks_of_leading h) (hdisjoint (mem_forks_of_trailing h'))
      · exact ⟨hempty, ihq hq h h'⟩
  | alt p q ihp ihq =>
    obtain ⟨hp, hq, hdisjoint⟩ := List.nodup_append'.mp hp
    rw [canBeEmpty, Bool.or_eq_true]
    rcases List.mem_append.mp h with h | h
    · rcases List.mem_append.mp h' with h' | h'
      · exact .inl (ihp hp h h')
      · exact absurd (mem_forks_of_trailing h') (hdisjoint (mem_forks_of_leading h))
    · rcases List.mem_append.mp h' with h' | h'
      · exact absurd (mem_forks_of_leading h) (hdisjoint (mem_forks_of_trailing h'))
      · exact .inr (ihq hq h h')
  | group _ p ihp => exact ihp hp h h'
  | loop fork _ p ihp =>
    obtain ⟨hp, hfork⟩ := nodup_forks_loop hp
    rw [leading, List.mem_append, List.mem_ite_nil_right] at h
    rcases h with ⟨hempty, -⟩ | h
    · exact hempty
    · rcases List.mem_append.mp h' with h' | h'
      · exact absurd (Option.mem_toList.mp h') (hfork k (mem_forks_of_leading h))
      · exact ihp hp h h'
  | star fork _ p ihp => rfl
  | once n p ihp =>
    obtain ⟨hn, hp⟩ := List.nodup_cons.mp hp
    rw [trailing, List.mem_append, List.mem_ite_nil_right] at h'
    rcases h' with ⟨hempty, -⟩ | h'
    · exact hempty
    · rcases List.mem_cons.mp h with rfl | h
      · exact absurd (mem_forks_of_trailing h') hn
      · exact ihp hp h h'

/-- What has been passed at an outcome had been so before, or it is a fork after which nothing need
be taken. -/
def Leaves (p : Pattern) (s t : Progress) : Prop :=
  ∀ k ∈ t.passed, k ∈ s.passed ∧ p.canBeEmpty ∨ k ∈ p.trailing

theorem Further.leaves (greedy : Bool) (h : Further fork p.outcomes s t)
    (hbody : ∀ {s t : Progress}, t ∈ p.outcomes s → p.Leaves s t) :
    (star fork greedy p).Leaves s t := by
  induction h with
  | stop pass =>
    intro k hk
    rcases ((Progress.through_of_pass? pass).passed k).mp hk with rfl | hk
    · exact .inr (List.mem_append_left _ (List.mem_singleton_self k))
    · exact .inl ⟨hk, rfl⟩
  | round pass mem _ _ ih =>
    intro k hk
    rcases ih k hk with ⟨hk, -⟩ | htrailing
    · rcases hbody mem k hk with ⟨hk, -⟩ | htrailing
      · rcases ((Progress.through_of_pass? pass).passed k).mp hk with rfl | hk
        · exact .inr (List.mem_append_left _ (List.mem_singleton_self k))
        · exact .inl ⟨hk, rfl⟩
      · exact .inr (List.mem_append_right _ htrailing)
    · exact .inr htrailing

theorem leaves_of_mem_outcomes (h : t ∈ p.outcomes s) : p.Leaves s t := by
  induction p generalizing s t with
  | empty =>
    obtain rfl := List.mem_singleton.mp h
    exact fun k hk => .inl ⟨hk, rfl⟩
  | one set =>
    rw [outcomes] at h
    split_ifs at h
    · rw [List.mem_singleton.mp h]
      exact fun k hk => absurd hk List.not_mem_nil
    · exact absurd h List.not_mem_nil
  | textStart | textEnd =>
    rw [outcomes] at h
    split_ifs at h
    · rw [List.mem_singleton.mp h]
      exact fun k hk => .inl ⟨hk, rfl⟩
    · exact absurd h List.not_mem_nil
  | seq p q hp hq =>
    obtain ⟨u, hu, ht⟩ := List.mem_flatMap.mp h
    intro k hk
    rw [trailing, List.mem_append, List.mem_ite_nil_right, canBeEmpty, Bool.and_eq_true]
    rcases hq ht k hk with ⟨hk, hempty⟩ | htrailing
    · rcases hp hu k hk with ⟨hk, hempty'⟩ | htrailing
      · exact .inl ⟨hk, hempty', hempty⟩
      · exact .inr (.inl ⟨hempty, htrailing⟩)
    · exact .inr (.inr htrailing)
  | alt p q hp hq =>
    intro k hk
    rw [trailing, List.mem_append, canBeEmpty, Bool.or_eq_true]
    rcases List.mem_append.mp h with h | h
    · rcases hp h k hk with ⟨hk, hempty⟩ | htrailing
      · exact .inl ⟨hk, .inl hempty⟩
      · exact .inr (.inl htrailing)
    · rcases hq h k hk with ⟨hk, hempty⟩ | htrailing
      · exact .inl ⟨hk, .inr hempty⟩
      · exact .inr (.inr htrailing)
  | group i p hp =>
    obtain ⟨u, hu, rfl⟩ := List.mem_map.mp h
    intro k hk
    exact hp hu k hk
  | loop fork greedy p hp =>
    obtain ⟨u, hu, hlater⟩ := mem_outcomes_loop.mp h
    intro k hk
    rcases Further.leaves greedy hlater hp k hk with ⟨hk, -⟩ | htrailing
    · exact (hp hu k hk).imp_right (List.mem_append_right _)
    · exact .inr htrailing
  | star fork greedy p hp => exact Further.leaves greedy (mem_outcomes_star.mp h) hp
  | once n p hp =>
    obtain ⟨here, hpass, ht⟩ := mem_outcomes_once.mp h
    intro k hk
    rw [trailing, List.mem_append, List.mem_ite_nil_right]
    rcases hp ht k hk with ⟨hk, hempty⟩ | htrailing
    · rcases ((Progress.through_of_pass? hpass).passed k).mp hk with heq | hk
      · exact .inr (.inl ⟨hempty, List.mem_singleton.mpr (Option.some.inj heq).symm⟩)
      · exact .inl ⟨hk, hempty⟩
    · exact .inr (.inr htrailing)

theorem canBeEmpty_numbered (p : Pattern) (n : Nat) :
    (p.numbered n).canBeEmpty = p.canBeEmpty := by
  induction p generalizing n with
  | empty | one _ | textStart | textEnd | star _ _ _ _ => rfl
  | seq p q hp hq | alt p q hp hq => simp only [numbered, canBeEmpty, hp, hq]
  | group _ p hp | loop _ _ p hp | once _ p hp => exact hp _

theorem groupCount_numbered (p : Pattern) (n : Nat) :
    (p.numbered n).groupCount = p.groupCount := by
  induction p generalizing n with
  | empty | one _ | textStart | textEnd => rfl
  | seq p q hp hq | alt p q hp hq => simp only [numbered, groupCount, hp, hq]
  | group _ p hp => simp only [numbered, groupCount, hp]
  | loop _ _ p hp | star _ _ p hp | once _ p hp => exact hp _

/-- No fork that has been passed can be met at once. -/
def Open (p : Pattern) (s : Progress) : Prop := ∀ k ∈ s.passed, k ∉ p.leading

theorem exists_pass? (hn : n ∉ s.passed) (hforks : n ∉ p.forks) (hs : p.Open s) :
    ∃ here, s.pass? (some n) = some here ∧ p.Open here ∧ here.forget = s.forget := by
  refine ⟨_, if_neg hn, fun k hk => ?_, rfl⟩
  rcases List.mem_cons.mp hk with rfl | hk
  · exact fun h => hforks (mem_forks_of_leading h)
  · exact hs k hk

/-- Behind a round that takes something the loop is open again. -/
theorem Leaves.isOpen (h : p.Leaves s t) (hp : p.forks.Nodup) (hn : n ∉ p.forks)
    (hempty : p.canBeEmpty = false) : n ∉ t.passed ∧ p.Open t := by
  have htrailing {k : Nat} (hk : k ∈ t.passed) : k ∈ p.trailing :=
    (h k hk).resolve_left fun hsame => Bool.false_ne_true (hempty.symm.trans hsame.2)
  refine ⟨fun hk => hn (mem_forks_of_trailing (htrailing hk)), fun k hk hleading => ?_⟩
  exact Bool.false_ne_true (hempty.symm.trans (canBeEmpty_of_mem hp hleading (htrailing hk)))

/-- If the rounds of a loop are those of another one without numbers and take something, the same
holds of what the loop comes to. -/
theorem map_forget_moreOutcomes {body : Progress → List Progress} (hp : p.forks.Nodup)
    (hn : n ∉ p.forks) (hempty : p.canBeEmpty = false)
    (hbody : ∀ s, p.Open s → (p.outcomes s).map Progress.forget = body s.forget)
    (hs : n ∉ s.passed ∧ p.Open s) :
    (moreOutcomes (some n) greedy p.outcomes s).map Progress.forget =
      moreOutcomes none greedy body s.forget := by
  induction hlength : s.rest.length using Nat.strongRecOn generalizing s with
  | ind length ih =>
    subst hlength
    obtain ⟨here, hpass, hhere, hforget⟩ := exists_pass? hs.1 hn hs.2
    have hagain :
        ((p.outcomes here).flatMap fun t =>
          if t.rest.length < s.rest.length then moreOutcomes (some n) greedy p.outcomes t else []
        ).map Progress.forget =
        (body s.forget).flatMap fun t =>
          if t.rest.length < s.rest.length then moreOutcomes none greedy body t else [] := by
      rw [← hforget, ← hbody here hhere, List.map_flatMap, List.flatMap_map]
      refine List.flatMap_congr fun t ht => ?_
      have hopen := (leaves_of_mem_outcomes ht).isOpen hp hn hempty
      by_cases hlt : t.rest.length < s.rest.length
      · rw [if_pos hlt, ih _ hlt hopen rfl]
        exact (if_pos hlt).symm
      · rw [if_neg hlt]
        exact (if_neg hlt).symm
    have hplain : moreOutcomes none greedy body s.forget =
        let again := (body s.forget).flatMap fun t =>
          if t.rest.length < s.rest.length then moreOutcomes none greedy body t else []
        if greedy then again ++ [s.forget] else s.forget :: again := by
      rw [moreOutcomes]
      rfl
    rw [moreOutcomes, hpass, Option.elim_some, hplain]
    cases greedy with
    | true =>
      change (_ ++ [here]).map Progress.forget = _ ++ [s.forget]
      rw [List.map_append, hagain, List.map_singleton, hforget]
    | false =>
      change (here :: _).map Progress.forget = s.forget :: _
      rw [List.map_cons, hagain, hforget]

theorem map_forget_flatMap {α β : Type} {f : α → List α} {g : β → List β} {h : α → β}
    {l : List α} {l' : List β} (hl : l.map h = l') (hf : ∀ a ∈ l, (f a).map h = g (h a)) :
    (l.flatMap f).map h = l'.flatMap g := by
  rw [← hl, List.map_flatMap, List.flatMap_map]
  exact List.flatMap_congr hf

theorem map_forget_outcomes (hp : p.forks = []) (hrounds : p.hasEmptyRounds = false)
    (hs : (p.numbered n).Open s) :
    ((p.numbered n).outcomes s).map Progress.forget = p.outcomes s.forget := by
  induction p generalizing n s with
  | empty => rfl
  | one set =>
    rw [numbered, outcomes, outcomes]
    change (if s.rest.head?.any set.holds then [s.advance 1] else []).map Progress.forget =
      if s.rest.head?.any set.holds then [s.forget.advance 1] else []
    split_ifs <;> rfl
  | textStart =>
    rw [numbered, outcomes, outcomes]
    change (if s.position = 0 then [s] else []).map Progress.forget =
      if s.position = 0 then [s.forget] else []
    split_ifs <;> rfl
  | textEnd =>
    rw [numbered, outcomes, outcomes]
    change (if s.rest.isEmpty then [s] else []).map Progress.forget =
      if s.rest.isEmpty then [s.forget] else []
    split_ifs <;> rfl
  | seq p q ihp ihq =>
    obtain ⟨hp, hq⟩ := List.append_eq_nil_iff.mp hp
    obtain ⟨hrounds, hrounds'⟩ := Bool.or_eq_false_iff.mp hrounds
    refine map_forget_flatMap (ihp hp hrounds fun k hk h => ?_) fun t ht => ?_
    · exact hs k hk (List.mem_append_left _ h)
    · refine ihq hq hrounds' fun k hk h => ?_
      rcases leaves_of_mem_outcomes ht k hk with ⟨hk, hempty⟩ | htrailing
      · exact hs k hk (List.mem_append_right _ (by rwa [if_pos hempty]))
      · exact (List.nodup_append'.mp (nodup_forks_numbered (seq p q) n)).2.2
          (mem_forks_of_trailing htrailing) (mem_forks_of_leading h)
  | alt p q ihp ihq =>
    obtain ⟨hp, hq⟩ := List.append_eq_nil_iff.mp hp
    obtain ⟨hrounds, hrounds'⟩ := Bool.or_eq_false_iff.mp hrounds
    obtain ⟨hn, -⟩ := List.nodup_cons.mp (nodup_forks_numbered (alt p q) n)
    obtain ⟨here, hpass, hhere, hforget⟩ :=
      exists_pass? (fun hk => hs n hk List.mem_cons_self) hn fun k hk h =>
        hs k hk (List.mem_cons_of_mem n h)
    change ((s.pass? (some n)).elim [] (alt _ _).outcomes).map Progress.forget =
      p.outcomes s.forget ++ q.outcomes s.forget
    rw [hpass, Option.elim_some, outcomes, List.map_append, ← hforget,
      ihp hp hrounds fun k hk h => hhere k hk (List.mem_append_left _ h),
      ihq hq hrounds' fun k hk h => hhere k hk (List.mem_append_right _ h)]
  | group i p ihp =>
    rw [numbered, outcomes, outcomes, ← ihp hp hrounds hs, List.map_map, List.map_map]
    rfl
  | loop fork greedy p ihp =>
    obtain ⟨hfork, hp⟩ := List.append_eq_nil_iff.mp hp
    obtain rfl := Option.toList_eq_nil_iff.mp hfork
    obtain ⟨hempty, hrounds⟩ := Bool.or_eq_false_iff.mp hrounds
    have hplain := (canBeEmpty_numbered p (n + 1)).trans hempty
    obtain ⟨hn, hnodup⟩ := List.nodup_cons.mp (nodup_forks_numbered (loop none greedy p) n)
    refine map_forget_flatMap (ihp hp hrounds fun k hk h => ?_) fun t ht => ?_
    · exact hs k hk (List.mem_append_right _ h)
    · exact map_forget_moreOutcomes hnodup hn hplain (fun s hs => ihp hp hrounds hs)
        ((leaves_of_mem_outcomes ht).isOpen hnodup hn hplain)
  | star fork greedy p ihp =>
    obtain ⟨hfork, hp⟩ := List.append_eq_nil_iff.mp hp
    obtain rfl := Option.toList_eq_nil_iff.mp hfork
    obtain ⟨hempty, hrounds⟩ := Bool.or_eq_false_iff.mp hrounds
    have hplain := (canBeEmpty_numbered p (n + 1)).trans hempty
    obtain ⟨hn, hnodup⟩ := List.nodup_cons.mp (nodup_forks_numbered (star none greedy p) n)
    exact map_forget_moreOutcomes hnodup hn hplain (fun s hs => ihp hp hrounds hs)
      ⟨fun hk => hs n hk List.mem_cons_self, fun k hk h => hs k hk (List.mem_cons_of_mem n h)⟩
  | once k p ihp => exact absurd hp (List.cons_ne_nil _ _)

section Plain

variable (hp : p.forks = []) (hrounds : p.hasEmptyRounds = false)
include hp hrounds

theorem map_forget_runAt (n i : Nat) (rest : List Char) :
    ((p.numbered n).runAt i rest).map Progress.forget = p.runAt i rest := by
  rw [runAt_eq_first, runAt_eq_first, first, first, ← List.head?_map, groupCount_numbered,
    map_forget_outcomes hp hrounds fun k hk => absurd hk List.not_mem_nil]
  rfl

theorem search_numbered (n i : Nat) (rest : List Char) :
    (p.numbered n).search i rest = p.search i rest := by
  induction rest generalizing i with
  | nil =>
    rw [search, search, ← map_forget_runAt hp hrounds n]
    cases (p.numbered n).runAt i [] <;> rfl
  | cons c rest ih =>
    rw [search, search, ← map_forget_runAt hp hrounds n]
    cases (p.numbered n).runAt i (c :: rest) with
    | none => exact ih (i + 1)
    | some s => rfl

theorem scan_numbered (n i : Nat) (rest : List Char) (justEnded : Bool) :
    (p.numbered n).scan i rest justEnded = p.scan i rest justEnded := by
  have hsearch := search_numbered hp hrounds n
  fun_induction p.scan i rest justEnded with
  | case1 i rest justEnded hnone => rw [scan.eq_def, hsearch, hnone]
  | case2 i rest justEnded m ahead hfound hshorter ih =>
    rw [scan.eq_def, hsearch, hfound]
    dsimp only
    rw [if_pos hshorter, ih]
  | case3 i m ahead hfound hshorter =>
    rw [scan.eq_def, hsearch, hfound]
    dsimp only
    rw [if_neg hshorter, if_pos rfl]
  | case4 i m ahead c rest hfound hshorter ih =>
    rw [scan.eq_def, hsearch, hfound]
    dsimp only
    rw [if_neg hshorter, if_pos rfl, ih]
  | case5 i rest justEnded m ahead hfound hshorter hfresh ih =>
    rw [scan.eq_def, hsearch, hfound]
    dsimp only
    rw [if_neg hshorter, if_neg hfresh, ih]

end Plain

/-- Where no round of a loop can be empty, numbers make no difference to what is found: no fork is
met twice at one place. -/
theorem findAll_fenced (hp : p.forks = []) (text : List Char) :
    p.fenced.findAll text = (p.numbered 0).findAll text := by
  rw [fenced]
  split_ifs with hrounds
  · rfl
  · exact (scan_numbered hp (Bool.eq_false_iff.mpr hrounds) 0 0 text false).symm

end Pattern

end MigrationAudit
