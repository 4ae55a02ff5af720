import MigrationAudit.Proofs.Quoting

namespace MigrationAudit.Toml

open Written

variable {c : Char} {s : String} {texts : List String} {rest : List Char}

theorem escape?_hex (c : Char) (rest : List Char) :
    escape? ('U' :: (hex 8 c.toNat ++ rest)) = some (c, 9) := by
  have hlength : ¬(hex 8 c.toNat ++ rest).length < 8 := by
    rw [List.length_append, length_hex]
    omega
  rw [escape?, if_neg hlength, List.take_left' (length_hex 8 _), codePoint?_hex]
  rfl

theorem isControl_of_isHarmless (h : isHarmless c) : isControl c = false := by
  simp only [isHarmless, Bool.and_eq_true, decide_eq_true_eq] at h
  simp only [isControl, Bool.or_eq_false_iff, Bool.and_eq_false_iff, decide_eq_false_iff_not]
  refine ⟨.inl (by omega), ?_⟩
  rintro rfl
  exact absurd h.1.1.2 (by decide)

theorem basic?_closed (text rest : List Char) :
    basic? (closed text ++ rest) = some (text, rest) := by
  induction text with
  | nil => rw [closed, List.flatMap_nil, List.nil_append, List.singleton_append, basic?]
  | cons c text ih =>
    rw [closed_cons_append, escaped]
    split_ifs with h
    · have hc := h
      simp only [isHarmless, Bool.and_eq_true, decide_eq_true_eq] at hc
      rw [List.singleton_append, basic?, isControl_of_isHarmless h, ih]
      · rfl
      · exact hc.1.2
      · exact fun heq => hc.2 heq
    · have hdrop : ('U' :: (hex 8 c.toNat ++ (closed text ++ rest))).drop 9 =
          closed text ++ rest := by
        rw [List.drop_succ_cons, List.drop_left' (length_hex 8 _)]
      rw [List.cons_append, List.cons_append, basic?, escape?_hex]
      simp [hdrop, ih]

theorem text?_quoted (h : rest.head? ≠ some '"') : text? (quoted s ++ rest) = some (s, rest) := by
  have hread := basic?_closed s.toList rest
  have hopen (more : List Char) : closed s.toList ++ rest ≠ '"' :: '"' :: more := by
    intro heq
    rw [heq, basic?] at hread
    rw [← (Prod.mk.inj (Option.some.inj hread)).2] at h
    exact h rfl
  rw [quoted, List.cons_append, text?, hread]
  · simp
  · exact hopen

theorem gap?_cons (h : c ∉ [' ', '\t', '\n', '\r', '#']) : gap? (c :: rest) = some (c :: rest) := by
  have hne (d : Char) (hd : d ∈ [' ', '\t', '\n', '\r', '#']) (more : List Char) :
      c :: rest = d :: more → False :=
    fun heq => h ((List.cons.inj heq).1 ▸ hd)
  rw [gap?]
  · exact hne ' ' (by decide)
  · exact hne '\t' (by decide)
  · exact hne '\n' (by decide)
  · exact fun more => hne '\r' (by decide) ('\n' :: more)
  · exact hne '#' (by decide)
  · exact hne '\r' (by decide)

theorem items?_of_text? {start after : List Char}
    (htext : text? ('"' :: start) = some (s, ',' :: after)) (hlt : after.length < start.length)
    (hitems : items? after = some (texts, rest)) :
    items? ('"' :: start) = some (s :: texts, rest) := by
  have hopen : gap? ('"' :: start) = some ('"' :: start) := gap?_cons (by decide)
  have hcomma : gap? (',' :: after) = some (',' :: after) := gap?_cons (by decide)
  rw [items?, hopen]
  simp [htext, hcomma, hitems]
  omega

theorem items?_items (texts : List String) (rest : List Char) :
    items? (items texts ++ rest) = some (texts, rest) := by
  induction texts with
  | nil =>
    have hgap : gap? (']' :: rest) = some (']' :: rest) := gap?_cons (by decide)
    change items? (']' :: rest) = _
    rw [items?, hgap]
    rfl
  | cons s texts ih =>
    rw [items_cons_append]
    exact items?_of_text? (text?_quoted (by simp)) (by simp [closed]; omega) ih

theorem value?_chars (value : Value) (h : rest.head? ≠ some '"') :
    value? (value.chars ++ rest) = some (value.setting, rest) := by
  cases value with
  | text s =>
    have htext : text? ('"' :: (closed s.toList ++ rest)) = some (s, rest) := text?_quoted h
    rw [Value.chars, quoted, List.cons_append, value?, htext]
    · rfl
    · simp
  | list texts =>
    rw [Value.chars, List.cons_append, value?, items?_items]
    rfl

theorem key?_quoted : key? (quoted s ++ rest) = some (s, rest) := by
  rw [quoted, List.cons_append, key?, basic?_closed]
  simp

theorem dropWhile_chars (value : Value) :
    (value.chars ++ rest).dropWhile isBlank = value.chars ++ rest := by
  cases value <;> rfl

def separator : List Char := [' ', '=', ' ']

theorem field?_line (key : String) (value : Value) (rest : List Char) :
    field? (quoted key ++ (separator ++ (value.chars ++ '\n' :: rest))) =
      some ((key, value.setting), '\n' :: rest) := by
  have hsign (more : List Char) : (separator ++ more).dropWhile isBlank = '=' :: ' ' :: more := rfl
  have hspace (more : List Char) : (' ' :: more).dropWhile isBlank = more.dropWhile isBlank := rfl
  have hvalue : value? (value.chars ++ '\n' :: rest) = some (value.setting, '\n' :: rest) :=
    value?_chars value (by simp)
  have hend : restOfLine? ('\n' :: rest) = some ('\n' :: rest) := rfl
  rw [field?, key?_quoted]
  simp [hsign, hspace, dropWhile_chars, hvalue, hend]

theorem gap?_lines (fields : List (String × Value)) :
    gap? (lines separator fields) = some (lines separator fields) := by
  cases fields with
  | nil =>
    change gap? [] = some []
    rw [gap?] <;> simp
  | cons field fields => exact gap?_cons (by decide)

theorem fields?_of_field? {start after : List Char} {field : String × Setting}
    {fields : List (String × Setting)} (hgap : gap? start = some (c :: after))
    (hfield : field? (c :: after) = some (field, rest)) (hlt : rest.length < start.length)
    (hrest : fields? rest = some fields) : fields? start = some (field :: fields) := by
  rw [fields?, hgap]
  simp [hfield, hlt, hrest]

/-- The end of the line before may still be ahead. -/
theorem fields?_of_gap? {start : List Char} {fields : List (String × Value)}
    (hgap : gap? start = some (lines separator fields))
    (hle : (lines separator fields).length ≤ start.length) :
    fields? start = some (settings fields) := by
  induction fields generalizing start with
  | nil =>
    rw [fields?, hgap]
    rfl
  | cons field fields ih =>
    obtain ⟨key, value⟩ := field
    have hrest : fields? ('\n' :: lines separator fields) = some (settings fields) :=
      ih (by rw [gap?, gap?_lines]) (Nat.le_succ _)
    have hfield := field?_line key value (lines separator fields)
    have hlt : ('\n' :: lines separator fields).length <
        (lines separator ((key, value) :: fields)).length := by
      simp [lines_cons, quoted]
      omega
    rw [lines_cons] at hgap hle hlt
    exact fields?_of_field? hgap hfield (hlt.trans_le hle) hrest

theorem parse_of_fields? {document : String} {fields : List (String × Setting)}
    (hmark : document.toList.head? ≠ some '\uFEFF')
    (hread : fields? document.toList = some fields) :
    parse document = Preferences.ofFields fields := by
  have hnone {rest : List Char} : document.toList ≠ '\uFEFF' :: rest := fun heq =>
    hmark (congrArg List.head? heq)
  unfold parse
  dsimp only
  split
  · next found heq =>
    split at heq
    · next hdocument => exact absurd hdocument hnone
    · rw [hread] at heq
      rw [Option.some.inj heq]
  · next heq =>
    split at heq
    · next hdocument => exact absurd hdocument hnone
    · rw [hread] at heq
      cases heq

/-- A document is read as the fields that it was written from, whatever keys and values they
have. -/
theorem parse_lines (fields : List (String × Value)) :
    parse (.ofList (lines separator fields)) = Preferences.ofFields (settings fields) := by
  refine parse_of_fields? ?_ ?_
  · rw [String.toList_ofList]
    cases fields with
    | nil => exact (Option.some_ne_none _).symm
    | cons field fields => exact fun heq => absurd (Option.some.inj heq) (by decide)
  · rw [String.toList_ofList]
    exact fields?_of_gap? (gap?_lines fields) le_rfl

end MigrationAudit.Toml
