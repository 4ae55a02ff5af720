import MigrationAudit.Pattern.Parse
import MigrationAudit.Proofs.Resuming

namespace MigrationAudit

namespace Pattern

variable {text : List Char} {p q : Pattern} {i j k n low : Nat} {high : Option Nat} {greedy : Bool}

theorem mem_forks_numbered (h : k ∈ (p.numbered n).forks) : n ≤ k ∧ k < n + p.forkCount := by
  induction p generalizing n with
  | empty | one _ | textStart | textEnd => exact absurd h List.not_mem_nil
  | seq p q hp hq =>
    rw [forkCount]
    rcases List.mem_append.mp h with h | h
    · have := hp h
      omega
    · have := hq h
      omega
  | alt p q hp hq =>
    rw [forkCount]
    rcases List.mem_cons.mp h with rfl | h
    · omega
    rcases List.mem_append.mp h with h | h
    · have := hp h
      omega
    · have := hq h
      omega
  | group _ p hp | once _ p hp => exact hp h
  | loop _ _ p hp | star _ _ p hp =>
    rw [forkCount]
    rcases List.mem_cons.mp h with rfl | h
    · omega
    · have := hp h
      omega

theorem nodup_forks_numbered (p : Pattern) (n : Nat) : (p.numbered n).forks.Nodup := by
  induction p generalizing n with
  | empty | one _ | textStart | textEnd => exact List.nodup_nil
  | seq p q hp hq =>
    refine List.nodup_append'.mpr ⟨hp n, hq _, fun k hk hk' => ?_⟩
    have := mem_forks_numbered hk
    have := mem_forks_numbered hk'
    omega
  | alt p q hp hq =>
    refine List.nodup_cons.mpr ⟨fun hn => ?_,
      List.nodup_append'.mpr ⟨hp _, hq _, fun k hk hk' => ?_⟩⟩
    · rcases List.mem_append.mp hn with hn | hn
      · have := mem_forks_numbered hn
        omega
      · have := mem_forks_numbered hn
        omega
    · have := mem_forks_numbered hk
      have := mem_forks_numbered hk'
      omega
  | group _ p hp | once _ p hp => exact hp n
  | loop _ _ p hp | star _ _ p hp =>
    refine List.nodup_cons.mpr ⟨fun hn => ?_, hp _⟩
    have := mem_forks_numbered hn
    omega

/-- Numbers make no difference to what a pattern describes. -/
theorem covers_numbered (p : Pattern) (n : Nat) :
    (p.numbered n).Covers text = p.Covers text := by
  funext i j
  induction p generalizing n i j with
  | empty | one _ | textStart | textEnd => rfl
  | seq p q hp hq | alt p q hp hq => simp only [numbered, Covers, hp, hq]
  | group _ p hp | once _ p hp => exact hp n i j
  | loop _ _ p hp | star _ _ p hp =>
    have hbody : (p.numbered (n + 1)).Covers text = p.Covers text := by
      funext i j
      exact hp (n + 1) i j
    simp only [numbered, Covers, hbody]

theorem covers_fenced (p : Pattern) : p.fenced.Covers text = p.Covers text := by
  rw [fenced]
  split_ifs
  · exact covers_numbered p 0
  · rfl

theorem nodup_forks_fenced (h : p.forks = []) : p.fenced.forks.Nodup := by
  rw [fenced]
  split_ifs
  · exact nodup_forks_numbered p 0
  · rw [h]
    exact List.nodup_nil

section Plain

theorem forks_ofList {ps : List Pattern} (h : ∀ p ∈ ps, p.forks = []) : (ofList ps).forks = [] := by
  induction ps with
  | nil => rfl
  | cons p ps ih =>
    obtain ⟨hp, hps⟩ := List.forall_mem_cons.mp h
    cases ps with
    | nil => exact hp
    | cons q ps => exact List.append_eq_nil_iff.mpr ⟨hp, ih hps⟩

theorem forks_anyOf {ps : List Pattern} (h : ∀ p ∈ ps, p.forks = []) : (anyOf ps).forks = [] := by
  induction ps with
  | nil => rfl
  | cons p ps ih =>
    obtain ⟨hp, hps⟩ := List.forall_mem_cons.mp h
    cases ps with
    | nil => exact hp
    | cons q ps => exact List.append_eq_nil_iff.mpr ⟨hp, ih hps⟩

theorem forks_optional (h : p.forks = []) : (optional greedy p).forks = [] := by
  rw [optional]
  split_ifs <;> simp [forks, h]

theorem forks_atMost (h : p.forks = []) : (atMost greedy p n).forks = [] := by
  induction n with
  | zero => rfl
  | succ n ih =>
    cases n with
    | zero => exact forks_optional h
    | succ n => exact forks_optional (List.append_eq_nil_iff.mpr ⟨h, ih⟩)

theorem forks_copies (hp : p.forks = []) (hq : q.forks = []) : (copies p n q).forks = [] := by
  induction n with
  | zero => exact hq
  | succ n ih => exact List.append_eq_nil_iff.mpr ⟨hp, ih⟩

theorem forks_repeated (h : p.forks = []) : (repeated greedy p low high).forks = [] := by
  cases high with
  | some high => exact forks_copies h (forks_atMost h)
  | none =>
    rw [repeated, anyNumber]
    split_ifs
    · exact forks_optional h
    · exact h
    · exact forks_copies h h

end Plain

end Pattern

/-- No fork inside an open bracket has a number. -/
structure OpenBracket.Plain (b : OpenBracket) : Prop where
  items : ∀ p ∈ b.items, p.forks = []
  branches : ∀ ps ∈ b.branches, ∀ p ∈ ps, p.forks = []

namespace OpenBracket

variable {b : OpenBracket} {p : Pattern}

theorem Plain.push (h : b.Plain) (hp : p.forks = []) : (b.push p).Plain :=
  ⟨List.forall_mem_cons.mpr ⟨hp, h.items⟩, h.branches⟩

theorem Plain.forks_pattern (h : b.Plain) : b.pattern.forks = [] := by
  have hbody : (Pattern.anyOf ((b.items :: b.branches).reverse.map fun items =>
      Pattern.ofList items.reverse)).forks = [] := by
    refine Pattern.forks_anyOf fun q hq => ?_
    obtain ⟨items, hitems, rfl⟩ := List.mem_map.mp hq
    refine Pattern.forks_ofList fun p hp => ?_
    rcases List.mem_cons.mp (List.mem_reverse.mp hitems) with rfl | hitems
    · exact h.items p (List.mem_reverse.mp hp)
    · exact h.branches items hitems p (List.mem_reverse.mp hp)
  rw [pattern]
  cases b.group with
  | none => exact hbody
  | some i => exact hbody

end OpenBracket

namespace Pattern

theorem plain_new (group : Option Nat) : OpenBracket.Plain ⟨group, [], []⟩ :=
  ⟨fun _ h => absurd h List.not_mem_nil, fun _ h => absurd h List.not_mem_nil⟩

/-- What is read off tokens has no numbers yet. -/
theorem forks_ofTokens? {tokens : List PatternToken} {top : OpenBracket} {below : List OpenBracket}
    {groups : Nat} {p : Pattern} (htop : top.Plain) (hbelow : ∀ b ∈ below, b.Plain)
    (h : ofTokens? tokens top below groups = some p) : p.forks = [] := by
  fun_induction ofTokens? tokens top below groups with
  | case1 top n =>
    obtain rfl := Option.some.inj h
    exact htop.forks_pattern
  | case2 | case10 | case11 => exact absurd h.symm (Option.some_ne_none p)
  | case3 set rest top below n ih | case4 rest top below n ih | case5 rest top below n ih =>
    exact ih (htop.push rfl) hbelow h
  | case6 rest top below n ih =>
    exact ih ⟨fun _ h => absurd h List.not_mem_nil,
      List.forall_mem_cons.mpr ⟨htop.items, htop.branches⟩⟩ hbelow h
  | case7 rest top below n ih | case8 rest top below n ih =>
    exact ih (plain_new _) (List.forall_mem_cons.mpr ⟨htop, hbelow⟩) h
  | case9 rest top n outer below ih =>
    obtain ⟨houter, hbelow⟩ := List.forall_mem_cons.mp hbelow
    exact ih (houter.push htop.forks_pattern) hbelow h
  | case12 low high greedy rest top below n q items hitems ih =>
    have hall := htop.items
    rw [hitems] at hall
    obtain ⟨hq, hrest⟩ := List.forall_mem_cons.mp hall
    exact ih ⟨List.forall_mem_cons.mpr ⟨forks_repeated hq, hrest⟩, htop.branches⟩ hbelow h

end Pattern

theorem Regex.nodup_forks (r : Regex) : r.pattern.forks.Nodup := by
  obtain ⟨tokens, -, hparse⟩ := Option.bind_eq_some_iff.mp r.parse?_source
  obtain ⟨p, hp, hfenced⟩ := Option.bind_eq_some_iff.mp hparse
  have hplain := Pattern.forks_ofTokens? (Pattern.plain_new none)
    (fun _ h => absurd h List.not_mem_nil) hp
  rw [← Option.some.inj hfenced]
  exact Pattern.nodup_forks_fenced hplain

end MigrationAudit
