import MigrationAudit.Config.Yaml.Document
import MigrationAudit.Proofs.Quoting

namespace MigrationAudit.Yaml

open Written

variable {c : Char} {s : String} {texts : List String} {m : Mark} {rest : List Char}

theorem isBlank_of_isHarmless (h : isHarmless c) : isBlank c = false := by
  simp only [isHarmless, Bool.and_eq_true, decide_eq_true_eq] at h
  simp only [isBlank, Bool.or_eq_false_iff, decide_eq_false_iff_not]
  constructor <;> (rintro rfl; exact absurd h.1.1.1 (by decide))

theorem isBreak_of_isHarmless (h : isHarmless c) : isBreak c = false := by
  simp only [isHarmless, Bool.and_eq_true, decide_eq_true_eq] at h
  simp only [isBreak, Bool.or_eq_false_iff, decide_eq_false_iff_not]
  refine ⟨⟨⟨⟨?_, ?_⟩, ?_⟩, ?_⟩, ?_⟩ <;> rintro rfl
  · exact absurd h.1.1.1 (by decide)
  · exact absurd h.1.1.1 (by decide)
  · exact absurd h.1.1.2 (by decide)
  · exact absurd h.1.1.2 (by decide)
  · exact absurd h.1.1.2 (by decide)

theorem escape?_hex (c : Char) (rest : List Char) :
    escape? ('U' :: (Toml.hex 8 c.toNat ++ rest)) = some (c, 9) := by
  have hlength : ¬(Toml.hex 8 c.toNat ++ rest).length < 8 := by
    rw [List.length_append, Toml.length_hex]
    omega
  rw [escape?, escape?.digits, if_neg hlength, List.take_left' (Toml.length_hex 8 _),
    Toml.codePoint?_hex]
  rfl

theorem Mark.advance_advance (a b : Nat) : (m.advance a).advance b = m.advance (a + b) := by
  simp [advance, Nat.add_assoc]

theorem atDocumentMark_of_column (h : m.column ≠ 0) : atDocumentMark m rest = false := by
  simp [atDocumentMark, h]

theorem Fold.text_none : Fold.none.text = [] := rfl

theorem quoted?_closed (h : m.column ≠ 0) (done text rest : List Char) :
    quoted? false m .none done (closed text ++ rest) =
      some (done.reverse ++ text, m.advance (closed text).length, rest) := by
  induction text generalizing m done with
  | nil =>
    have hquote : closed [] ++ rest = '"' :: rest := rfl
    rw [hquote, quoted?]
    simp [atDocumentMark_of_column h, isBlank, isBreak, Fold.text_none]
    rfl
  | cons c text ih =>
    have hcolumn (n : Nat) : (m.advance (n + 1)).column ≠ 0 := Nat.succ_ne_zero _
    have hlength : (closed (c :: text)).length = (escaped c).length + (closed text).length := by
      simp [closed]
    rw [closed_cons_append, hlength, escaped]
    split_ifs with hc
    · have hne := hc
      simp only [isHarmless, Bool.and_eq_true, decide_eq_true_eq] at hne
      have hread := ih (hcolumn 0) (c :: done)
      rw [List.singleton_append, quoted?, isBlank_of_isHarmless hc, isBreak_of_isHarmless hc,
        atDocumentMark_of_column h]
      simp [hne, Fold.text_none, hread, Mark.advance_advance]
    · have hread := ih (hcolumn 9) (c :: done)
      have hdrop : ('U' :: (Toml.hex 8 c.toNat ++ (closed text ++ rest))).drop 9 =
          closed text ++ rest := by
        rw [List.drop_succ_cons, List.drop_left' (Toml.length_hex 8 _)]
      have hU : isBreak 'U' = false := by decide
      have hbackslash : isBlank '\\' = false ∧ isBreak '\\' = false := by decide
      rw [List.cons_append, List.cons_append, quoted?, atDocumentMark_of_column h]
      simp [hbackslash, hU, Fold.text_none, escape?_hex, hdrop, hread, Mark.advance_advance,
        Toml.length_hex]

namespace Scan

/-- One token more, with what has to be skipped before it. -/
theorem finish?_of_token? {s next after : Scan} {tokens : List Token}
    (hnext : s.toToken.dropStale? = some next) (hrest : next.rest = c :: rest)
    (htoken : (next.closeTo (next.mark.column + 1)).token? c rest = some after)
    (hlt : after.rest.length < s.rest.length) (hafter : after.finish? = some tokens) :
    s.finish? = some tokens := by
  rw [finish?, hnext]
  simp only [Option.bind_eq_bind, Option.bind_some]
  split
  · rename_i heq
    rw [hrest] at heq
    cases heq
  · rename_i heq
    rw [hrest] at heq
    cases heq
    rw [htoken]
    simp [hlt, hafter]

/-- A scan in no block yet or in the one at the left margin, and outside of brackets or in one. -/
def margin (opened : Bool) (m : Mark) (rest : List Char) (tokens : List Token) (keyAllowed : Bool)
    (keys : List (Option KeyStart)) : Scan :=
  if opened then ⟨m, rest, tokens, 1, [0], keyAllowed, keys⟩
  else ⟨m, rest, tokens, 0, [], keyAllowed, keys⟩

variable {opened keyAllowed : Bool} {tokens : List Token} {keys : List (Option KeyStart)}

theorem closeTo_margin : (margin opened m rest tokens keyAllowed keys).closeTo (m.column + 1) =
    margin opened m rest tokens keyAllowed keys := by
  rw [closeTo]
  split_ifs
  · rfl
  · cases opened <;> simp [margin]

theorem token?_quoted {scan : Scan} (hsave : scan.saveKey? = some { scan with keys })
    (hrest : scan.rest = quoted s ++ rest) :
    scan.token? '"' (closed s.toList ++ rest) =
      some ⟨scan.mark.advance (quoted s).length, rest, scan.tokens ++ [.scalar s false], scan.level,
        scan.outer, false, keys⟩ := by
  have hmark : atDocumentMark scan.mark scan.rest = false := by
    simp [atDocumentMark, hrest, quoted]
  have hread : Yaml.quoted? false (scan.mark.advance 1) .none [] (closed s.toList ++ rest) =
      some (s.toList, scan.mark.advance (quoted s).length, rest) := by
    rw [quoted?_closed (Nat.succ_ne_zero _), Mark.advance_advance, Nat.add_comm]
    rfl
  have htail : (quoted s ++ rest).tail = closed s.toList ++ rest := rfl
  rw [token?, hmark]
  simp [Scan.quoted?, hsave, allowKey, hrest, htail, hread, after, emit]

theorem toToken_of_nil {scan : Scan} (h : scan.rest = []) : scan.toToken = scan := by
  rw [toToken]
  split
  · rfl
  · rename_i heq
    rw [h] at heq
    cases heq

theorem toToken_of_begins {scan : Scan} (h : scan.rest = c :: rest)
    (hc : c ∈ ['"', ':', '[', ',', ']']) : scan.toToken = scan := by
  rw [toToken]
  split
  · rfl
  · rename_i heq
    obtain ⟨rfl, rfl⟩ := List.cons.inj (h.symm.trans heq)
    simp only [List.mem_cons, List.not_mem_nil, or_false] at hc
    rcases hc with rfl | rfl | rfl | rfl | rfl <;> simp [isBreak]

theorem toToken_blank {scan : Scan} (h : scan.rest = ' ' :: rest) :
    scan.toToken = (scan.after (scan.mark.advance 1) rest).toToken := by
  rw [toToken]
  split
  · rename_i heq
    rw [h] at heq
    cases heq
  · rename_i heq
    obtain ⟨rfl, rfl⟩ := List.cons.inj (h.symm.trans heq)
    simp

theorem toToken_lineEnd {m : Mark} :
    (margin true m ('\n' :: rest) tokens keyAllowed [none]).toToken =
    (margin true (m.nextLine 1) rest tokens true [none]).toToken := by
  rw [toToken]
  split
  · rename_i heq
    cases heq
  · rename_i heq
    obtain ⟨rfl, rfl⟩ := List.cons.inj heq
    simp [isBreak, lineEnd, inFlow, margin, after, allowKey]

variable {scan : Scan} {all : List Token} {key : String}

theorem rest_margin : (margin opened m rest tokens keyAllowed keys).rest = rest := by
  cases opened <;> rfl

theorem mark_margin : (margin opened m rest tokens keyAllowed keys).mark = m := by
  cases opened <;> rfl

/-- One token more from between the tokens of a line. -/
theorem finish?_of_margin {after : Scan} {keys' : List (Option KeyStart)}
    (hbegins : scan.toToken = margin opened m (c :: rest) tokens keyAllowed keys)
    (hle : (c :: rest).length ≤ scan.rest.length)
    (hfresh : (margin opened m (c :: rest) tokens keyAllowed keys).dropStale? =
      some (margin opened m (c :: rest) tokens keyAllowed keys'))
    (htoken : (margin opened m (c :: rest) tokens keyAllowed keys').token? c rest = some after)
    (hlt : after.rest.length < (c :: rest).length) (hafter : after.finish? = some all) :
    scan.finish? = some all := by
  rw [← hbegins] at hfresh
  refine finish?_of_token? hfresh rest_margin ?_ (hlt.trans_le hle) hafter
  rw [mark_margin, closeTo_margin, htoken]

theorem length_lt_quoted (key : String) (rest : List Char) :
    rest.length < (quoted key ++ rest).length := by
  have hquote : 0 < (quoted key).length := Nat.succ_pos _
  rw [List.length_append]
  omega

theorem finish?_key
    (hbegins : scan.toToken = margin opened m (quoted key ++ rest) tokens true [none])
    (hle : (quoted key ++ rest).length ≤ scan.rest.length) (hcolumn : m.column = 0)
    (hafter : (margin opened (m.advance (quoted key).length) rest (tokens ++ [.scalar key false])
      false [some ⟨tokens.length, m, opened⟩]).finish? = some all) :
    scan.finish? = some all := by
  cases opened with
  | false =>
    refine finish?_of_margin hbegins hle rfl (token?_quoted ?_ rfl)
      (length_lt_quoted key rest) hafter
    simp [saveKey?, margin, dropKey?, inFlow, hcolumn]
  | true =>
    refine finish?_of_margin hbegins hle rfl (token?_quoted ?_ rfl)
      (length_lt_quoted key rest) hafter
    simp [saveKey?, margin, dropKey?, inFlow, hcolumn]

/-- The colon makes a key of the text before it, and the first key of all opens the block. -/
theorem finish?_colon (hcolumn : m.column = 0) (hshort : (quoted key).length ≤ 1024)
    (hafter : (margin true (m.advance ((quoted key).length + 1)) (' ' :: rest)
      (tokens ++ ((if opened then [] else [.blockMapping]) ++ [.key, .scalar key false, .value]))
      false [none]).finish? = some all) :
    (margin opened (m.advance (quoted key).length) (':' :: ' ' :: rest)
      (tokens ++ [.scalar key false]) false [some ⟨tokens.length, m, opened⟩]).finish? =
      some all := by
  let colon := margin opened (m.advance (quoted key).length) (':' :: ' ' :: rest)
    (tokens ++ [.scalar key false]) false [some ⟨tokens.length, m, opened⟩]
  have hfresh : colon.dropStale? = some colon := by
    have hkey : colon.isStale ⟨tokens.length, m, opened⟩ = false := by
      simp only [colon, isStale, mark_margin, Mark.advance]
      simp
      omega
    cases opened <;> simp [dropStale?, colon, margin] at hkey ⊢ <;> simp [hkey]
  have hmark : atDocumentMark (m.advance (quoted key).length) (':' :: ' ' :: rest) = false := by
    simp [atDocumentMark]
  have hgap : atGap (' ' :: rest) = true := rfl
  have hadvance := Mark.advance_advance (m := m) (quoted key).length 1
  refine finish?_of_margin (toToken_of_begins rest_margin (by decide))
    (Nat.le_of_eq (congrArg _ rest_margin.symm)) hfresh ?_
    (Nat.lt_succ_self _) hafter
  cases opened <;>
    simp [token?, margin, hmark, hgap, value?, openAt, inFlow, hcolumn, allowKey, skip, emit,
      hadvance]

theorem finish?_text (hbegins : scan.toToken = margin true m (quoted s ++ rest) tokens false [none])
    (hle : (quoted s ++ rest).length ≤ scan.rest.length)
    (hafter : (margin true (m.advance (quoted s).length) rest (tokens ++ [.scalar s false]) false
      [none]).finish? = some all) :
    scan.finish? = some all :=
  finish?_of_margin hbegins hle rfl (token?_quoted rfl rfl) (length_lt_quoted s rest) hafter

theorem finish?_openBracket
    (hbegins : scan.toToken = margin true m ('[' :: rest) tokens false [none])
    (hle : ('[' :: rest).length ≤ scan.rest.length)
    (hafter : (margin true (m.advance 1) rest (tokens ++ [.flowSequence]) true
      [none, none]).finish? = some all) :
    scan.finish? = some all := by
  refine finish?_of_margin hbegins hle rfl ?_ (Nat.lt_succ_self _) hafter
  simp [token?, margin, atDocumentMark]
  rfl

theorem finish?_closeBracket 
    (hafter : (margin true (m.advance 1) rest (tokens ++ [.flowSequenceEnd]) false
      [none]).finish? = some all) :
    (margin true m (']' :: rest) tokens true [none, none]).finish? = some all := by
  refine finish?_of_margin (toToken_of_begins rfl (by decide)) le_rfl
    rfl ?_ (Nat.lt_succ_self _) hafter
  simp [token?, margin, atDocumentMark]
  rfl

/-- In brackets a key that is too far back is forgotten, and it need not be one. -/
theorem dropStale?_bracket {start : KeyStart} (hfree : start.required = false) : ∃ key,
    (key = none ∨ key = some start) ∧
      (margin true m rest tokens keyAllowed [some start, none]).dropStale? =
        some (margin true m rest tokens keyAllowed [key, none]) := by
  cases hstale : (margin true m rest tokens keyAllowed [some start, none]).isStale start with
  | false => exact ⟨some start, .inr rfl, by simp [margin] at hstale; simp [dropStale?,
    margin, hstale]⟩
  | true => exact ⟨none, .inl rfl, by simp [margin] at hstale; simp [dropStale?, margin,
    hstale, hfree]⟩

theorem finish?_comma {start : KeyStart} (hfree : start.required = false)
    (hafter : (margin true (m.advance 1) rest (tokens ++ [.flowEntry]) true
      [none, none]).finish? = some all) :
    (margin true m (',' :: rest) tokens false [some start, none]).finish? = some all := by
  obtain ⟨key, hkey, hfresh⟩ := dropStale?_bracket hfree
  refine finish?_of_margin (toToken_of_begins rfl (by decide)) le_rfl
    hfresh ?_ (Nat.lt_succ_self _) hafter
  rcases hkey with rfl | rfl <;>
    simp [token?, margin, atDocumentMark, flowEntry?, dropKey?, hfree, allowKey, skip, emit]

theorem finish?_item
    (hafter : (margin true (m.advance ((quoted s).length + 1)) rest
      (tokens ++ [.scalar s false, .flowEntry]) true [none, none]).finish? = some all) :
    (margin true m (quoted s ++ ',' :: rest) tokens true [none, none]).finish? = some all := by
  let item := margin true m (quoted s ++ ',' :: rest) tokens true [none, none]
  have hsave : item.saveKey? = some { item with keys := [some ⟨tokens.length, m, false⟩, none] } :=
    rfl
  have hfresh : item.dropStale? = some item := rfl
  refine finish?_of_margin (toToken_of_begins rfl (by decide)) le_rfl hfresh
    (token?_quoted hsave rfl)
    (length_lt_quoted s _) (finish?_comma rfl ?_)
  change (margin true ((m.advance _).advance 1) rest ((tokens ++ _) ++ _) _ _).finish? = _
  rw [Mark.advance_advance, List.append_assoc]
  exact hafter

end Scan

def itemTokens (texts : List String) : List Token :=
  texts.flatMap (fun s => [.scalar s false, .flowEntry]) ++ [.flowSequenceEnd]

def valueTokens : Value → List Token
  | .text s => [.scalar s false]
  | .list texts => .flowSequence :: itemTokens texts

def fieldTokens (field : String × Value) : List Token :=
  [.key, .scalar field.1 false, .value] ++ valueTokens field.2

def separator : List Char := [':', ' ']

namespace Scan

variable {opened : Bool} {tokens all : List Token} {scan : Scan}

theorem finish?_items (hafter : ∀ m, (margin true m rest (tokens ++ itemTokens texts) false
      [none]).finish? = some all) :
    (margin true m (items texts ++ rest) tokens true [none, none]).finish? = some all := by
  induction texts generalizing m tokens with
  | nil => exact finish?_closeBracket (hafter _)
  | cons s texts ih =>
    rw [items_cons_append]
    refine finish?_item (ih fun m => ?_)
    rw [List.append_assoc]
    exact hafter m

theorem finish?_value (value : Value)
    (hafter : ∀ m,
      (margin true m rest (tokens ++ valueTokens value) false [none]).finish? = some all) :
    (margin true m (' ' :: (value.chars ++ rest)) tokens false [none]).finish? = some all := by
  cases value with
  | text s =>
    have hbegins : (margin true m (' ' :: (quoted s ++ rest)) tokens false [none]).toToken =
        margin true (m.advance 1) (quoted s ++ rest) tokens false [none] :=
      (toToken_blank rfl).trans (toToken_of_begins rfl (by decide))
    exact finish?_text hbegins (Nat.le_succ _) (hafter _)
  | list texts =>
    have hbegins :
        (margin true m (' ' :: '[' :: (items texts ++ rest)) tokens false [none]).toToken =
          margin true (m.advance 1) ('[' :: (items texts ++ rest)) tokens false [none] :=
      (toToken_blank rfl).trans (toToken_of_begins rfl (by decide))
    refine finish?_openBracket hbegins (Nat.le_succ _) (finish?_items fun m => ?_)
    rw [List.append_assoc]
    exact hafter m

theorem finish?_field {key : String} {value : Value}
    (hbegins : scan.toToken =
      margin opened m (quoted key ++ (separator ++ (value.chars ++ rest))) tokens true [none])
    (hle : (quoted key ++ (separator ++ (value.chars ++ rest))).length ≤ scan.rest.length)
    (hcolumn : m.column = 0) (hshort : (quoted key).length ≤ 1024)
    (hafter : ∀ m, (margin true m rest
      (tokens ++ ((if opened then [] else [.blockMapping]) ++ fieldTokens (key, value))) false
      [none]).finish? = some all) :
    scan.finish? = some all := by
  refine finish?_key hbegins hle hcolumn
    (finish?_colon hcolumn hshort (finish?_value value fun m => ?_))
  have happend := hafter m
  rw [fieldTokens, ← List.append_assoc, ← List.append_assoc] at happend
  rwa [← List.append_assoc]

theorem toToken_lines (fields : List (String × Value)) :
    (margin opened m (lines separator fields) tokens true [none]).toToken =
      margin opened m (lines separator fields) tokens true [none] := by
  cases fields with
  | nil => exact toToken_of_nil rest_margin
  | cons field fields =>
    exact toToken_of_begins (rest_margin.trans lines_cons) (by decide)

/-- From the end of a line on. -/
theorem finish?_lineEnd {fields : List (String × Value)}
    (hshort : ∀ field ∈ fields, (quoted field.1).length ≤ 1024) :
    (margin true m ('\n' :: lines separator fields) tokens false [none]).finish? =
      some (tokens ++ (fields.flatMap fieldTokens ++ [.blockEnd])) := by
  induction fields generalizing m tokens with
  | nil =>
    rw [finish?, toToken_lineEnd, toToken_lines]
    rfl
  | cons field fields ih =>
    obtain ⟨key, value⟩ := field
    obtain ⟨hkey, hfields⟩ := List.forall_mem_cons.mp hshort
    have hbegins : (margin true m ('\n' :: lines separator ((key, value) :: fields)) tokens false
        [none]).toToken = _ := toToken_lineEnd.trans (toToken_lines _)
    rw [lines_cons] at hbegins ⊢
    refine finish?_field hbegins (Nat.le_succ _) rfl hkey fun m => ?_
    change (margin true m _ (tokens ++ fieldTokens (key, value)) false [none]).finish? = _
    rw [ih hfields, List.flatMap_cons, List.append_assoc, List.append_assoc]

end Scan

def documentTokens : List (String × Value) → List Token
  | [] => []
  | fields => .blockMapping :: (fields.flatMap fieldTokens ++ [.blockEnd])

theorem finish?_start {fields : List (String × Value)}
    (hshort : ∀ field ∈ fields, (quoted field.1).length ≤ 1024) :
    (Scan.start (lines separator fields)).finish? = some (documentTokens fields) := by
  change (Scan.margin false ⟨0, 0, 0⟩ (lines separator fields) [] true [none]).finish? = _
  cases fields with
  | nil =>
    rw [Scan.finish?, Scan.toToken_lines]
    rfl
  | cons field fields =>
    obtain ⟨key, value⟩ := field
    obtain ⟨hkey, hfields⟩ := List.forall_mem_cons.mp hshort
    have hbegins : (Scan.margin false ⟨0, 0, 0⟩ (lines separator ((key, value) :: fields)) [] true
        [none]).toToken = _ := Scan.toToken_lines _
    rw [lines_cons] at hbegins ⊢
    refine Scan.finish?_field hbegins le_rfl rfl hkey fun m => ?_
    rw [Scan.finish?_lineEnd hfields]
    simp [documentTokens]

theorem isAllowed_hex (count n : Nat) : (Toml.hex count n).all isAllowed := by
  induction count generalizing n with
  | zero => rfl
  | succ count ih =>
    have hdigit : ∀ d : Fin 16, isAllowed (Nat.digitChar d) := by decide
    rw [Toml.hex, List.all_append, ih, List.all_cons, hdigit ⟨n % 16, Nat.mod_lt n (by decide)⟩]
    rfl

theorem isAllowed_escaped (c : Char) : (escaped c).all isAllowed := by
  rw [escaped]
  split_ifs with h
  · simp only [isHarmless, Bool.and_eq_true, decide_eq_true_eq] at h
    simp [isAllowed]
    omega
  · rw [List.all_cons, List.all_cons, isAllowed_hex]
    rfl

theorem isAllowed_quoted (text : String) : (quoted text).all isAllowed := by
  have hquote : isAllowed '"' = true := by decide
  rw [quoted, closed, List.all_cons, List.all_append, List.all_flatMap, hquote]
  simp [isAllowed_escaped, hquote]

theorem isAllowed_chars (value : Value) : value.chars.all isAllowed := by
  cases value with
  | text s => exact isAllowed_quoted s
  | list texts =>
    have hmarks : isAllowed '[' = true ∧ isAllowed ',' = true ∧ isAllowed ']' = true := by decide
    rw [Value.chars, items, List.all_cons, List.all_append, List.all_flatMap]
    simp [isAllowed_quoted, hmarks]

theorem isAllowed_lines (fields : List (String × Value)) :
    (lines separator fields).all isAllowed := by
  induction fields with
  | nil => rfl
  | cons field fields ih =>
    have hends : isAllowed '\n' = true ∧ separator.all isAllowed = true := by decide
    rw [lines_cons]
    simp only [List.all_append, List.all_cons, isAllowed_quoted, isAllowed_chars, hends, ih,
      Bool.and_self]

theorem ofChars?_lines {fields : List (String × Value)}
    (hshort : ∀ field ∈ fields, (quoted field.1).length ≤ 1024) :
    Token.ofChars? (lines separator fields) = some (documentTokens fields) := by
  have hmark : (lines separator fields).head? ≠ some '\uFEFF' := by
    cases fields with
    | nil => exact (Option.some_ne_none _).symm
    | cons field fields => exact fun heq => absurd (Option.some.inj heq) (by decide)
  rw [Token.ofChars?, if_pos (isAllowed_lines fields), if_neg hmark, finish?_start hshort]

end MigrationAudit.Yaml
