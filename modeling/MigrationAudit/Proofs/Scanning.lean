import MigrationAudit.Pattern.Match
import Mathlib.Tactic.SplitIfs
import Mathlib.Order.Basic

namespace MigrationAudit

namespace Pattern

variable {p : Pattern} {n k : Nat} {c : Char} {text rest : List Char} {m : Match}

def matchAt? (p : Pattern) (n : Nat) (text : List Char) : Option Match :=
  (p.runAt n text).map fun s => ⟨⟨n, s.position⟩, s.groups⟩

theorem start_of_matchAt? (h : p.matchAt? n text = some m) : m.whole.start = n := by
  obtain ⟨s, -, rfl⟩ := Option.map_eq_some_iff.mp h
  rfl

def Silent (p : Pattern) (n : Nat) (text : List Char) (k : Nat) : Prop :=
  ∀ i < k, p.runAt (n + i) (text.drop i) = none

theorem silent_zero : p.Silent n text 0 := fun i hi => absurd hi (Nat.not_lt_zero i)

theorem silent_cons : p.Silent n (c :: rest) (k + 1) ↔
    p.runAt n (c :: rest) = none ∧ p.Silent (n + 1) rest k := by
  constructor
  · intro h
    refine ⟨h 0 (Nat.succ_pos k), fun i hi => ?_⟩
    rw [Nat.add_right_comm, Nat.add_assoc]
    exact h (i + 1) (Nat.succ_lt_succ hi)
  · rintro ⟨hfirst, hlater⟩ i hi
    cases i with
    | zero => exact hfirst
    | succ i =>
      have hnone := hlater i (Nat.lt_of_succ_lt_succ hi)
      rwa [Nat.add_right_comm, Nat.add_assoc] at hnone

/-- The search stops at the first position where the pattern matches. -/
theorem search_eq_some {ahead : List Char} (h : p.search n text = some (m, ahead)) :
    ∃ k ≤ text.length, p.Silent n text k ∧ ∃ s, p.runAt (n + k) (text.drop k) = some s ∧
      m = ⟨⟨n + k, s.position⟩, s.groups⟩ ∧ ahead = s.rest := by
  induction text generalizing n with
  | nil =>
    rw [search] at h
    cases hrun : p.runAt n [] with
    | none => simp [hrun] at h
    | some s =>
      simp only [hrun, Option.some.injEq, Prod.mk.injEq] at h
      exact ⟨0, Nat.le_refl _, silent_zero, s, hrun, h.1.symm, h.2.symm⟩
  | cons c rest ih =>
    rw [search] at h
    cases hrun : p.runAt n (c :: rest) with
    | none =>
      simp only [hrun] at h
      obtain ⟨k, hk, hsilent, s, hs, hm⟩ := ih h
      rw [Nat.add_right_comm, Nat.add_assoc] at hs hm
      exact ⟨k + 1, Nat.succ_le_succ hk, silent_cons.mpr ⟨hrun, hsilent⟩, s, hs, hm⟩
    | some s =>
      simp only [hrun, Option.some.injEq, Prod.mk.injEq] at h
      exact ⟨0, Nat.zero_le _, silent_zero, s, hrun, h.1.symm, h.2.symm⟩

theorem silent_of_search (h : p.search n text = none) : p.Silent n text (text.length + 1) := by
  induction text generalizing n with
  | nil =>
    rw [search] at h
    cases hrun : p.runAt n [] with
    | none =>
      intro i hi
      obtain rfl := Nat.lt_one_iff.mp hi
      exact hrun
    | some s => simp [hrun] at h
  | cons c rest ih =>
    rw [search] at h
    cases hrun : p.runAt n (c :: rest) with
    | none =>
      simp only [hrun] at h
      exact silent_cons.mpr ⟨hrun, ih h⟩
    | some s => simp [hrun] at h

def matchesAt (p : Pattern) (n : Nat) : List Char → List Match
  | [] => (p.matchAt? n []).toList
  | c :: rest => (p.matchAt? n (c :: rest)).toList ++ p.matchesAt (n + 1) rest

theorem mem_matchesAt :
    m ∈ p.matchesAt n text ↔ ∃ k ≤ text.length, p.matchAt? (n + k) (text.drop k) = some m := by
  induction text generalizing n with
  | nil => simp [matchesAt]
  | cons c rest ih =>
    rw [matchesAt, List.mem_append, Option.mem_toList]
    constructor
    · rintro (h | h)
      · exact ⟨0, Nat.zero_le _, h⟩
      · obtain ⟨k, hk, h⟩ := ih.mp h
        rw [Nat.add_right_comm, Nat.add_assoc] at h
        exact ⟨k + 1, Nat.succ_le_succ hk, h⟩
    · rintro ⟨k, hk, h⟩
      cases k with
      | zero => exact .inl h
      | succ k =>
        refine .inr (ih.mpr ⟨k, Nat.le_of_succ_le_succ hk, ?_⟩)
        rw [Nat.add_right_comm, Nat.add_assoc]
        exact h

theorem pairwise_matchesAt (p : Pattern) (n : Nat) (text : List Char) :
    (p.matchesAt n text).Pairwise fun m m' => m.whole.start < m'.whole.start := by
  have hone (o : Option Match) : o.toList.Pairwise fun m m' => m.whole.start < m'.whole.start := by
    cases o <;> simp
  induction text generalizing n with
  | nil => exact hone _
  | cons c rest ih =>
    rw [matchesAt, List.pairwise_append]
    refine ⟨hone _, ih (n + 1), ?_⟩
    intro m hm m' hm'
    obtain ⟨k, -, hk⟩ := mem_matchesAt.mp hm'
    rw [start_of_matchAt? (Option.mem_toList.mp hm), start_of_matchAt? hk]
    omega

/-- Positions at which nothing matches may be passed over. -/
theorem matchesAt_eq_drop (hk : k ≤ text.length) (h : p.Silent n text k) :
    p.matchesAt n text = p.matchesAt (n + k) (text.drop k) := by
  induction k generalizing n text with
  | zero => rfl
  | succ k ih =>
    cases text with
    | nil => cases hk
    | cons c rest =>
      obtain ⟨hfirst, hlater⟩ := silent_cons.mp h
      rw [matchesAt, matchAt?, hfirst, ih (Nat.le_of_succ_le_succ hk) hlater, Nat.add_right_comm,
        Nat.add_assoc]
      rfl

/-- Where nothing matches any more, there is nothing to find. -/
theorem matchesAt_eq_nil (h : p.Silent n text (text.length + 1)) : p.matchesAt n text = [] := by
  refine List.eq_nil_iff_forall_not_mem.mpr fun m hm => ?_
  obtain ⟨k, hk, hmatch⟩ := mem_matchesAt.mp hm
  rw [matchAt?, h k (Nat.lt_succ_of_le hk)] at hmatch
  cases hmatch

/-- What a match takes: some characters, and the pattern matches nowhere inside them. -/
structure Takes (p : Pattern) (n : Nat) (text : List Char) (s : Progress)
    (length : Nat) : Prop where
  pos : 0 < length
  le_length : length ≤ text.length
  position : s.position = n + length
  rest : s.rest = text.drop length
  silent : p.Silent (n + 1) (text.drop 1) (length - 1)

/-- No match is empty and none begins inside another. -/
def Apart (p : Pattern) : Prop :=
  ∀ n text s, p.runAt n text = some s → ∃ length, p.Takes n text s length

theorem Takes.matchesAt_eq {s : Progress} {length : Nat} (h : p.Takes n text s length)
    (hrun : p.runAt n text = some s) :
    p.matchesAt n text = ⟨⟨n, s.position⟩, s.groups⟩ :: p.matchesAt s.position s.rest := by
  obtain ⟨hpos, hle, hposition, hrest, hsilent⟩ := h
  obtain ⟨length, rfl⟩ := Nat.exists_eq_add_one_of_ne_zero (Nat.ne_of_gt hpos)
  cases text with
  | nil => cases hle
  | cons c rest =>
    rw [matchesAt, matchAt?, hrun, Option.map_some,
      matchesAt_eq_drop (Nat.le_of_succ_le_succ hle) hsilent, hposition, hrest, Nat.add_right_comm,
      Nat.add_assoc]
    rfl

/-- A scan misses no match of a pattern whose matches keep apart. -/
theorem scan_eq (h : p.Apart) (n : Nat) (text : List Char) (justEnded : Bool) :
    p.scan n text justEnded = p.matchesAt n text := by
  induction hlength : text.length using Nat.strongRecOn generalizing n text justEnded with
  | ind l ih =>
    subst hlength
    unfold scan
    cases hsearch : p.search n text with
    | none => exact (matchesAt_eq_nil (silent_of_search hsearch)).symm
    | some found =>
      obtain ⟨m, ahead⟩ := found
      obtain ⟨k, hk, hsilent, s, hrun, rfl, rfl⟩ := search_eq_some hsearch
      obtain ⟨length, htakes⟩ := h _ _ _ hrun
      have hshorter : s.rest.length < text.length := by
        have hpos := htakes.pos
        have hle := htakes.le_length
        rw [List.length_drop] at hle
        rw [htakes.rest, List.length_drop, List.length_drop]
        omega
      simp only [hshorter, if_true]
      rw [ih _ hshorter _ s.rest true rfl, matchesAt_eq_drop hk hsilent, htakes.matchesAt_eq hrun]

theorem findAll_eq (h : p.Apart) (text : List Char) : p.findAll text = p.matchesAt 0 text :=
  scan_eq h 0 text false

def NeverEmpty (p : Pattern) : Prop :=
  ∀ n text s, p.runAt n text = some s → s.rest.length < text.length

section NeverEmpty

variable (h : p.NeverEmpty) {s : Progress} (justEnded other : Bool)
include h

/-- Without empty matches it makes no difference to a scan whether a match has just ended. -/
theorem scan_eq_search : p.scan n text justEnded = (p.search n text).elim [] fun found =>
    found.1 :: p.scan found.1.whole.stop found.2 true := by
  rw [scan.eq_def]
  cases hsearch : p.search n text with
  | none => rfl
  | some found =>
    obtain ⟨m, ahead⟩ := found
    obtain ⟨k, -, -, s, hrun, -, rfl⟩ := search_eq_some hsearch
    have hshorter : s.rest.length < text.length :=
      Nat.lt_of_lt_of_le (h _ _ _ hrun) (List.drop_suffix k text).length_le
    simp only [hshorter, if_true]
    rfl

theorem scan_of_runAt_eq_some (hrun : p.runAt n text = some s) :
    p.scan n text justEnded = ⟨⟨n, s.position⟩, s.groups⟩ :: p.scan s.position s.rest true := by
  have hsearch : p.search n text = some (⟨⟨n, s.position⟩, s.groups⟩, s.rest) := by
    cases text <;> rw [search, hrun]
  rw [scan_eq_search h, hsearch]
  rfl

theorem scan_of_runAt_eq_none (hrun : p.runAt n (c :: rest) = none) :
    p.scan n (c :: rest) justEnded = p.scan (n + 1) rest other := by
  have hsearch : p.search n (c :: rest) = p.search (n + 1) rest := by rw [search, hrun]
  rw [scan_eq_search h, scan_eq_search h, hsearch]

theorem scan_nil : p.scan n [] justEnded = [] := by
  have hrun : p.runAt n [] = none := by
    refine Option.eq_none_iff_forall_ne_some.mpr fun s hs => ?_
    exact absurd (h n [] s hs) (Nat.not_lt_zero _)
  have hsearch : p.search n [] = none := by rw [search, hrun]
  rw [scan_eq_search h, hsearch]
  rfl

end NeverEmpty

end Pattern

end MigrationAudit
