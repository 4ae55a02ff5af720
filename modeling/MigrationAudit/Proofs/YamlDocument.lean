import MigrationAudit.Proofs.YamlTokens

namespace MigrationAudit.Yaml

open Written

variable {names : Names} {s : String} {texts : List String} {rest : List Token}

theorem scalar?_scalar : scalar? names (.scalar s false :: rest) = some (.quoted s, names, rest) :=
    rfl

theorem bracketed?_itemTokens :
    bracketed? names (itemTokens texts ++ rest) = some (texts, names, rest) := by
  induction texts with
  | nil =>
    change bracketed? names (.flowSequenceEnd :: rest) = _
    rw [bracketed?]
  | cons s texts ih =>
    change bracketed? names (.scalar s false :: .flowEntry :: (itemTokens texts ++ rest)) = _
    have hlt : (itemTokens texts ++ rest).length <
        (.scalar s false :: .flowEntry :: (itemTokens texts ++ rest)).length :=
      Nat.lt_succ_of_lt (Nat.lt_succ_self _)
    rw [bracketed?, scalar?_scalar]
    · dsimp only
      rw [if_pos hlt, ih]
      rfl
    · simp

theorem setting?_valueTokens (value : Value) :
    setting? names (valueTokens value ++ rest) = some (value.setting, names, rest) := by
  cases value with
  | text s => rfl
  | list texts =>
    change setting? names (.flowSequence :: (itemTokens texts ++ rest)) = _
    simp [setting?, properties?, bracketed?_itemTokens, Names.declare, Value.setting]

theorem blockFields?_fieldTokens (fields : List (String × Value)) :
    blockFields? names (fields.flatMap fieldTokens ++ .blockEnd :: rest) =
      some (settings fields, rest) := by
  induction fields with
  | nil =>
    change blockFields? names (.blockEnd :: rest) = _
    rw [blockFields?]
    rfl
  | cons field fields ih =>
    obtain ⟨key, value⟩ := field
    have hopens :
        endsEntry (valueTokens value ++ (fields.flatMap fieldTokens ++ .blockEnd :: rest)) =
          false := by
      cases value <;> rfl
    have hcons : ((key, value) :: fields).flatMap fieldTokens ++ .blockEnd :: rest =
        .key :: .scalar key false :: .value ::
          (valueTokens value ++ (fields.flatMap fieldTokens ++ .blockEnd :: rest)) := by
      simp [fieldTokens]
    rw [hcons, blockFields?, scalar?_scalar]
    simp [hopens, setting?_valueTokens, ih, settings, Scalar.quoted]
    omega

theorem fields?_documentTokens (fields : List (String × Value)) :
    fields? (documentTokens fields) = some (settings fields) := by
  cases fields with
  | nil => rfl
  | cons field fields =>
    have hblock (names : Names) : blockFields? names ((field :: fields).flatMap fieldTokens ++
        [.blockEnd]) = some (settings (field :: fields), []) :=
      blockFields?_fieldTokens _
    change fields? (.blockMapping :: ((field :: fields).flatMap fieldTokens ++ [.blockEnd])) = _
    generalize (field :: fields).flatMap fieldTokens ++ [.blockEnd] = tokens at hblock ⊢
    simp [fields?, directives?, root?, properties?, hblock]

/-- A document is read as the fields that it was written from, whatever values they have, if no key
is too long to be recognized as one. -/
theorem parse_lines {fields : List (String × Value)}
    (hshort : ∀ field ∈ fields, (quoted field.1).length ≤ 1024) :
    parse (.ofList (lines separator fields)) = Preferences.ofFields (settings fields) := by
  rw [parse, String.toList_ofList, ofChars?_lines hshort]
  simp [fields?_documentTokens]

end MigrationAudit.Yaml
