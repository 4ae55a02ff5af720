import MigrationAudit.Pattern.Parse
import MigrationAudit.Proofs.Words

namespace MigrationAudit

def PatternSymbol.operators : List Char :=
  ['\\', '.', '^', '$', '|', ')', '*', '+', '?', '(', '[', '{']

def PatternSymbol.plain (c : Char) : PatternSymbol := if c ∈ operators then literal c else mark c

def PatternToken.plain (c : Char) : PatternToken := .one ⟨[.range c c], false⟩

namespace Text

def escape (c : Char) : List Char := if c ∈ PatternSymbol.operators then ['\\', c] else [c]

def written : List String → List Char
  | [] => []
  | [w] => w.toList.flatMap escape
  | w :: words => w.toList.flatMap escape ++ '|' :: written words

end Text

open Text (escape written)

theorem PatternSymbol.ofChars?_cons {c : Char} (h : c ≠ '\\') (rest : List Char) :
    ofChars? (c :: rest) = (ofChars? rest).map (mark c :: ·) := by
  rw [ofChars?]
  · cases ofChars? rest <;> rfl
  · exact fun hc _ => h hc
  · exact fun _ _ hc _ => h hc

theorem PatternSymbol.ofChars?_escape (c : Char) (rest : List Char) :
    ofChars? (escape c ++ rest) = (ofChars? rest).map (plain c :: ·) := by
  by_cases hc : c ∈ operators
  · have hescape : operators.all fun c => ofEscape? c = some (literal c) := by decide +kernel
    rw [escape, if_pos hc, plain, if_pos hc]
    change (do return (← ofEscape? c) :: (← ofChars? rest)) = _
    rw [of_decide_eq_true (List.all_eq_true.mp hescape c hc)]
    cases ofChars? rest <;> rfl
  · have hslash : c ≠ '\\' := fun h => hc (h ▸ List.mem_cons_self)
    rw [escape, if_neg hc, plain, if_neg hc]
    exact ofChars?_cons hslash rest

namespace PatternToken

theorem next?_plain (c : Char) (rest : List PatternSymbol) :
    next? (.plain c) rest = some (plain c, rest) := by
  by_cases hc : c ∈ PatternSymbol.operators
  · rw [PatternSymbol.plain, if_pos hc]
    rfl
  · rw [PatternSymbol.plain, if_neg hc]
    simp only [PatternSymbol.operators, List.mem_cons, List.not_mem_nil, or_false, not_or] at hc
    rw [next?] <;> simp_all [plain]

/-- If a text begins with a symbol that is a token by itself, the tokens begin with that one. -/
theorem ofChars?_append {cs rest : List Char} {s : PatternSymbol} {token : PatternToken}
    (hread : PatternSymbol.ofChars? (cs ++ rest) = (PatternSymbol.ofChars? rest).map (s :: ·))
    (hnext : ∀ after, next? s after = some (token, after)) :
    ofChars? (cs ++ rest) = (ofChars? rest).map (token :: ·) := by
  rw [ofChars?, ofChars?, hread]
  cases PatternSymbol.ofChars? rest with
  | none => rfl
  | some after =>
    change ofSymbols? (s :: after) = (ofSymbols? after).map (token :: ·)
    rw [ofSymbols?, hnext]
    exact if_pos le_rfl

theorem ofChars?_escape (w rest : List Char) :
    ofChars? (w.flatMap escape ++ rest) = (ofChars? rest).map (w.map plain ++ ·) := by
  induction w with
  | nil => exact (Option.map_id_apply ..).symm
  | cons c w ih =>
    rw [List.flatMap_cons, List.append_assoc,
      ofChars?_append (PatternSymbol.ofChars?_escape c _) (next?_plain c), ih, Option.map_map]
    rfl

theorem ofChars?_bar (rest : List Char) :
    ofChars? ('|' :: rest) = (ofChars? rest).map (.bar :: ·) := by
  have hread : PatternSymbol.ofChars? (['|'] ++ rest) = (PatternSymbol.ofChars? rest).map
      (.mark '|' :: ·) :=
    PatternSymbol.ofChars?_cons (by decide) rest
  exact ofChars?_append hread fun _ => rfl

theorem ofChars?_nil : ofChars? [] = some [] := by
  change ofSymbols? [] = some []
  rw [ofSymbols?]

def ofWords : List String → List PatternToken
  | [] => []
  | [w] => w.toList.map plain
  | w :: words => w.toList.map plain ++ .bar :: ofWords words

theorem ofChars?_written (words : List String) :
    ofChars? (written words) = some (ofWords words) := by
  induction words with
  | nil => exact ofChars?_nil
  | cons w words ih =>
    cases words with
    | nil =>
      have hword := ofChars?_escape w.toList []
      rwa [List.append_nil, ofChars?_nil, Option.map_some, List.append_nil] at hword
    | cons w' words =>
      rw [written, ofChars?_escape, ofChars?_bar, ih]
      · rfl
      · exact List.cons_ne_nil w' words

end PatternToken

namespace Pattern

open PatternToken (plain)

theorem ofTokens?_plain (w : List Char) (rest : List PatternToken) (top : OpenBracket)
    (below : List OpenBracket) (n : Nat) :
    ofTokens? (w.map plain ++ rest) top below n =
      ofTokens? rest { top with items := (w.map char).reverse ++ top.items } below n := by
  induction w generalizing top with
  | nil => rfl
  | cons c w ih =>
    rw [List.map_cons, List.cons_append, plain, ofTokens?, ih, List.map_cons, List.reverse_cons,
      List.append_assoc]
    rfl

/-- The words are put behind the alternatives that are there. -/
theorem ofTokens?_ofWords {words : List String} (h : words ≠ []) (branches : List (List Pattern)) :
    ofTokens? (PatternToken.ofWords words) ⟨none, branches, []⟩ [] 0 =
      some (anyOf ((branches.reverse.map fun items => ofList items.reverse) ++
        words.map literal)) := by
  induction words generalizing branches with
  | nil => exact absurd rfl h
  | cons w words ih =>
    cases words with
    | nil =>
      have hword := ofTokens?_plain w.toList [] ⟨none, branches, []⟩ [] 0
      rw [List.append_nil, List.append_nil] at hword
      rw [PatternToken.ofWords, hword, ofTokens?, OpenBracket.pattern]
      simp [literal]
    | cons w' words =>
      rw [PatternToken.ofWords, ofTokens?_plain, ofTokens?, ih (List.cons_ne_nil w' words)]
      · simp [literal]
      · exact List.cons_ne_nil w' words

theorem hasEmptyRounds_ofList {ps : List Pattern} (h : ∀ p ∈ ps, p.hasEmptyRounds = false) :
    (ofList ps).hasEmptyRounds = false := by
  induction ps with
  | nil => rfl
  | cons p ps ih =>
    obtain ⟨hp, hps⟩ := List.forall_mem_cons.mp h
    cases ps with
    | nil => exact hp
    | cons q ps => exact Bool.or_eq_false_iff.mpr ⟨hp, ih hps⟩

theorem hasEmptyRounds_anyOf {ps : List Pattern} (h : ∀ p ∈ ps, p.hasEmptyRounds = false) :
    (anyOf ps).hasEmptyRounds = false := by
  induction ps with
  | nil => rfl
  | cons p ps ih =>
    obtain ⟨hp, hps⟩ := List.forall_mem_cons.mp h
    cases ps with
    | nil => exact hp
    | cons q ps => exact Bool.or_eq_false_iff.mpr ⟨hp, ih hps⟩

theorem fenced_ofWords (words : List String) : (ofWords words).fenced = ofWords words := by
  refine if_neg (ne_true_of_eq_false (hasEmptyRounds_anyOf fun p hp => ?_))
  obtain ⟨w, -, rfl⟩ := List.mem_map.mp hp
  refine hasEmptyRounds_ofList fun p hp => ?_
  obtain ⟨c, -, rfl⟩ := List.mem_map.mp hp
  rfl

/-- A pattern that is written for some words looks for these words. -/
theorem parse?_written {words : List String} {s : String} (h : words ≠ [])
    (hs : s.toList = written words) : parse? s = some (ofWords words) := by
  rw [parse?, hs, PatternToken.ofChars?_written]
  change (ofTokens? (PatternToken.ofWords words) ⟨none, [], []⟩ [] 0).bind (some ·.fenced) = _
  rw [ofTokens?_ofWords h []]
  exact congrArg some (fenced_ofWords words)

end Pattern

end MigrationAudit
