import MigrationAudit.Report.Human
import Mathlib.Data.List.Basic

namespace MigrationAudit

namespace Text

variable {α : Type} {a : α} {front front' back back' : List α}

/-- A text can be cut in one way at the first place of a character. -/
theorem cut_inj (h : a ∉ front) (h' : a ∉ front')
    (heq : front ++ a :: back = front' ++ a :: back') : front = front' ∧ back = back' := by
  rcases List.append_eq_append_iff.mp heq with ⟨_ | ⟨b, more⟩, rfl,
    hback⟩ | ⟨_ | ⟨b, more⟩, rfl, hback⟩
  · exact ⟨(List.append_nil _).symm, (List.cons.inj hback).2⟩
  · obtain ⟨rfl, -⟩ := List.cons.inj hback
    simp at h'
  · exact ⟨List.append_nil _, (List.cons.inj hback).2.symm⟩
  · obtain ⟨rfl, -⟩ := List.cons.inj hback
    simp at h

theorem not_mem_toList_append {c : Char} {s t : String} :
    c ∉ (s ++ t).toList ↔ c ∉ s.toList ∧ c ∉ t.toList := by
  rw [String.toList_append, List.mem_append, not_or]

/-- What is no digit does not stand in a number. -/
theorem not_mem_toList_repr {c : Char} (h : c.isDigit = false) (n : Nat) : c ∉ n.repr.toList := by
  rw [Nat.toList_repr]
  intro hmem
  rw [Nat.isDigit_of_mem_toDigits (by decide) (by decide) hmem] at h
  exact Bool.noConfusion h

/-- The text without the sequences that switch the rendition: an escape, a bracket, digits and an
`m`. -/
def withoutSequences : List Char → List Char
  | '\x1b' :: '[' :: rest =>
    match _ : rest.dropWhile Char.isDigit with
    | 'm' :: after => withoutSequences after
    | _ => '\x1b' :: withoutSequences ('[' :: rest)
  | c :: rest => c :: withoutSequences rest
  | [] => []
termination_by text => text.length
decreasing_by
  · have hle := length_dropWhile_le Char.isDigit rest
    simp_all
    omega
  all_goals simp

theorem withoutSequences_append {text : List Char} (h : '\x1b' ∉ text) (rest : List Char) :
    withoutSequences (text ++ rest) = text ++ withoutSequences rest := by
  induction text with
  | nil => rfl
  | cons c text ih =>
    obtain ⟨hc, htext⟩ := not_or.mp (mt List.mem_cons.mpr h)
    rw [List.cons_append, withoutSequences, ih htext, List.cons_append]
    rintro _ rfl
    exact absurd rfl hc

end Text

namespace Style

theorem toList_sequence (code : String) :
    (sequence code).toList = '\x1b' :: '[' :: (code.toList ++ ['m']) := by
  simp [sequence, String.toList_append]

theorem withoutSequences_sequence {code : String} (h : ∀ c ∈ code.toList, c.isDigit)
    (rest : List Char) :
    Text.withoutSequences ((sequence code).toList ++ rest) = Text.withoutSequences rest := by
  have hdrop : (code.toList ++ ['m'] ++ rest).dropWhile Char.isDigit = 'm' :: rest := by
    rw [List.append_assoc, List.dropWhile_append_of_pos h]
    rfl
  rw [toList_sequence, List.cons_append, List.cons_append, Text.withoutSequences]
  split
  · rename_i after hafter
    rw [hdrop] at hafter
    rw [(List.cons.inj hafter).2]
  · rename_i hnone
    exact absurd hdrop (hnone rest)

/-- The codes that set something, each with the code that resets it. -/
def settings : List (String × String) :=
  ("1", "0") :: [Colour.red, .green, .yellow, .blue, .cyan].map fun c => (c.code, "39")

inductive Piece where
  | switch (code : String)
  | shown (text : List Char)

namespace Piece

def chars : Piece → List Char
  | switch code => (sequence code).toList
  | shown text => text

def Sound : Piece → Prop
  | switch code => ∀ c ∈ code.toList, c.isDigit
  | shown text => '\x1b' ∉ text

variable {pieces : List Piece}

theorem withoutSequences_pieces (sound : ∀ p ∈ pieces, p.Sound) :
    Text.withoutSequences (pieces.flatMap chars) = pieces.flatMap fun
      | switch _ => []
      | shown text => text := by
  induction pieces with
  | nil => simp [Text.withoutSequences]
  | cons p pieces ih =>
    obtain ⟨hp, hpieces⟩ := List.forall_mem_cons.mp sound
    rw [List.flatMap_cons, List.flatMap_cons, ← ih hpieces]
    cases p with
    | switch code => exact withoutSequences_sequence hp _
    | shown text => exact Text.withoutSequences_append hp _

/-- What is no digit does not stand in a code. -/
theorem letter_not_mem {code : String} (h : ∀ c ∈ code.toList, c.isDigit) {c : Char}
    (hc : c.isDigit = false) : c ∉ code.toList := by
  intro hmem
  rw [h c hmem] at hc
  exact Bool.noConfusion hc

/-- A sequence has one escape, which is its first character. -/
theorem eq_of_sequence_eq {code : String} (h : ∀ c ∈ code.toList, c.isDigit)
    {before more : List Char} (heq : (sequence code).toList = before ++ '\x1b' :: more) :
    before = [] ∧ more = '[' :: (code.toList ++ ['m']) := by
  rw [toList_sequence] at heq
  cases before with
  | nil => exact ⟨rfl, (List.cons.inj heq).2.symm⟩
  | cons c before =>
    have hmem : '\x1b' ∈ '[' :: (code.toList ++ ['m']) := by
      rw [(List.cons.inj heq).2]
      simp
    have hescape : '\x1b' ∉ code.toList := letter_not_mem h rfl
    simp [hescape] at hmem

/-- A sequence in the text is one of its pieces. -/
theorem exists_switch (sound : ∀ p ∈ pieces, p.Sound) {code : String}
    (hcode : ∀ c ∈ code.toList, c.isDigit) {before after : List Char}
    (h : pieces.flatMap chars = before ++ (sequence code).toList ++ after) :
    ∃ front back, pieces = front ++ switch code :: back ∧ before = front.flatMap chars ∧
      after = back.flatMap chars := by
  induction pieces generalizing before with
  | nil => simp [toList_sequence] at h
  | cons p pieces ih =>
    obtain ⟨hp, hpieces⟩ := List.forall_mem_cons.mp sound
    rw [List.flatMap_cons, List.append_assoc] at h
    have hlater {before' : List Char} (hbefore : before = p.chars ++ before')
        (hrest : pieces.flatMap chars = before' ++ ((sequence code).toList ++ after)) :
        ∃ front back, p :: pieces = front ++ switch code :: back ∧ before = front.flatMap chars ∧
          after = back.flatMap chars := by
      obtain ⟨front, back, rfl, rfl, hafter⟩ := ih hpieces (hrest.trans (List.append_assoc ..).symm)
      exact ⟨p :: front, back, rfl, hbefore, hafter⟩
    rcases List.append_eq_append_iff.mp h with
      ⟨before', hbefore, hrest⟩ | ⟨_ | ⟨c, more⟩, hchars, hrest⟩
    · exact hlater hbefore hrest
    · exact @hlater [] (by simpa using hchars.symm) hrest.symm
    · -- The escape stands in this piece, so that the piece is the sequence.
      rw [toList_sequence, List.cons_append, List.cons_append, List.cons_append] at hrest
      obtain ⟨rfl, hmore⟩ := List.cons.inj hrest
      cases p with
      | shown text =>
        have hmem : '\x1b' ∈ text := by
          rw [show text = before ++ '\x1b' :: more from hchars]
          simp
        exact absurd hmem hp
      | switch code' =>
        obtain ⟨rfl, rfl⟩ := eq_of_sequence_eq hp hchars
        have hcodes : code.toList ++ 'm' :: after = code'.toList ++ 'm' ::
            pieces.flatMap chars := by
          simpa using hmore
        obtain ⟨hcode', hafter⟩ :=
          Text.cut_inj (letter_not_mem hcode rfl) (letter_not_mem hp rfl) hcodes
        obtain rfl : code = code' := String.toList_inj.mp hcode'
        exact ⟨[], pieces, rfl, rfl, hafter⟩

/-- Each piece that sets something comes before the reset of it, and in between the same is not set
again. Where `oneLine` holds the line does not end there either. -/
inductive Closed (oneLine : Prop) : List Piece → Prop where
  | nil : Closed oneLine []
  | shown {text : List Char} {rest : List Piece} : Closed oneLine rest →
    Closed oneLine (.shown text :: rest)
  | reset {code : String} {rest : List Piece} (reset : code ∈ settings.map Prod.snd) :
      Closed oneLine rest → Closed oneLine (.switch code :: rest)
  | setting {code reset : String} {inside rest : List Piece} (setting : (code, reset) ∈ settings)
      (apart : ∀ other, (other, reset) ∈ settings → .switch other ∉ inside)
      (line : oneLine → ∀ text, .shown text ∈ inside → '\n' ∉ text) :
      Closed oneLine (inside ++ .switch reset :: rest) →
        Closed oneLine (.switch code :: (inside ++ .switch reset :: rest))

namespace Closed

variable {oneLine : Prop} {front rest : List Piece}

theorem append (hfront : Closed oneLine front) (hrest : Closed oneLine rest) :
    Closed oneLine (front ++ rest) := by
  induction hfront with
  | nil => exact hrest
  | shown _ ih => exact ih.shown
  | reset hreset _ ih => exact ih.reset hreset
  | setting hsetting hapart hline _ ih =>
    rw [List.append_assoc, List.cons_append] at ih
    rw [List.cons_append, List.append_assoc, List.cons_append]
    exact ih.setting hsetting hapart hline

theorem flatMap {α : Type} {f : α → List Piece} {as : List α} (h : ∀ a ∈ as, Closed oneLine (f a)) :
    Closed oneLine (as.flatMap f) := by
  induction as with
  | nil => exact nil
  | cons a as ih =>
    obtain ⟨ha, has⟩ := List.forall_mem_cons.mp h
    exact ha.append (ih has)

theorem of_append (h : Closed oneLine (front ++ rest)) : Closed oneLine rest := by
  induction front with
  | nil => exact h
  | cons p front ih =>
    apply ih
    rw [List.cons_append] at h
    generalize front ++ rest = pieces at h
    cases h <;> assumption

/-- What is closed can be put between a setting and its reset. -/
theorem wrap {code reset : String} (h : Closed oneLine front) (setting : (code, reset) ∈ settings)
    (apart : ∀ other, (other, reset) ∈ settings → .switch other ∉ front)
    (line : oneLine → ∀ text, .shown text ∈ front → '\n' ∉ text) :
    Closed oneLine (.switch code :: (front ++ [.switch reset])) :=
  (h.append (nil.reset (List.mem_map_of_mem setting))).setting setting apart line

end Closed

end Piece

/-- Every sequence in the text is a reset, or it sets something and its reset follows before the
same is set again, and also before the line ends if `oneLine` holds. -/
def SpansEnd (oneLine : Prop) (text : List Char) : Prop :=
  ∀ (before after : List Char) (code : String), (∀ c ∈ code.toList, c.isDigit) →
    text = before ++ (sequence code).toList ++ after →
    code ∈ settings.map Prod.snd ∨ ∃ reset inside rest, (code, reset) ∈ settings ∧
      after = inside ++ (sequence reset).toList ++ rest ∧ (oneLine → '\n' ∉ inside) ∧
      ∀ other, (other, reset) ∈ settings → ¬(sequence other).toList <:+: inside

theorem isDigit_of_mem_settings {code reset : String} (h : (code, reset) ∈ settings) :
    ∀ c ∈ code.toList, c.isDigit := by
  have hall : ∀ row ∈ settings, ∀ c ∈ row.1.toList, c.isDigit := by simp [settings, Colour.code]
  exact hall _ h

theorem Piece.Closed.spansEnd {oneLine : Prop} {pieces : List Piece} (sound : ∀ p ∈ pieces, p.Sound)
    (h : Closed oneLine pieces) : SpansEnd oneLine (pieces.flatMap chars) := by
  intro before after code hcode htext
  obtain ⟨front, back, rfl, rfl, rfl⟩ := exists_switch sound hcode htext
  have hback : Closed oneLine (switch code :: back) := h.of_append
  cases hback with
  | reset hreset => exact .inl hreset
  | @setting _ reset inside rest hsetting hapart hline =>
    right
    have hinside : ∀ p ∈ inside, p.Sound := fun p hp => sound p (by simp [hp])
    refine ⟨reset, inside.flatMap chars, rest.flatMap chars, hsetting, by simp [chars],
      fun hone hmem => ?_, fun other hother ⟨before, after, hpart⟩ => ?_⟩
    · obtain ⟨p, hp, hmem⟩ := List.mem_flatMap.mp hmem
      cases p with
      | shown text => exact hline hone text hp hmem
      | switch code =>
        have hnot : '\n' ∉ code.toList := letter_not_mem (hinside _ hp) rfl
        simp [chars, toList_sequence, hnot] at hmem
    · obtain ⟨front, back, rfl, -, -⟩ :=
        exists_switch hinside (isDigit_of_mem_settings hother) hpart.symm
      exact hapart other hother (by simp)

def pieces (s : Style) (text : String) : List Piece :=
  let inner := match s.colour with
    | some c => [.switch c.code, .shown text.toList, .switch "39"]
    | none => [.shown text.toList]
  if s.bold then .switch "1" :: (inner ++ [.switch "0"]) else inner

theorem toList_apply (s : Style) (text : String) :
    (s.apply text).toList = (s.pieces text).flatMap Piece.chars := by
  unfold apply pieces
  cases s.bold <;> cases s.colour <;> simp [Piece.chars, String.toList_append]

theorem mem_settings_code (c : Colour) : (c.code, "39") ∈ settings := by cases c <;> decide

theorem eq_one_of_mem_settings {other : String} (h : (other, "0") ∈ settings) : other = "1" := by
  simpa [settings] using h

variable {oneLine : Prop} {s : Style} {text : String}

theorem sound_pieces (h : '\x1b' ∉ text.toList) : ∀ p ∈ s.pieces text, p.Sound := by
  obtain ⟨bold, colour⟩ := s
  cases colour with
  | none => cases bold <;> simp [pieces, Piece.Sound, h]
  | some c =>
    have hcode := isDigit_of_mem_settings (mem_settings_code c)
    cases bold <;> simpa [pieces, Piece.Sound, h] using hcode

theorem closed_pieces (h : s ≠ plain → oneLine → '\n' ∉ text.toList) :
    Piece.Closed oneLine (s.pieces text) := by
  have hshown : Piece.Closed oneLine [.shown text.toList] := .shown .nil
  have hcoloured (c : Colour) (hline : oneLine → '\n' ∉ text.toList) :
      Piece.Closed oneLine (.switch c.code :: ([.shown text.toList] ++ [.switch "39"])) :=
    hshown.wrap (mem_settings_code c) (by simp) (by simpa using hline)
  obtain ⟨bold, colour⟩ := s
  cases bold with
  | false =>
    cases colour with
    | none => exact hshown
    | some c => exact hcoloured c (h (by simp [plain]))
  | true =>
    have hline : oneLine → '\n' ∉ text.toList := h (by simp [plain])
    cases colour with
    | none => exact hshown.wrap (by decide) (by simp) (by simpa using hline)
    | some c =>
      refine (hcoloured c hline).wrap (by decide) (fun other hother => ?_) (by simpa using hline)
      rw [eq_one_of_mem_settings hother]
      cases c <;> simp [Colour.code]

end Style

abbrev Styled := List (Style × String)

namespace Styled

def toText (colour : Bool) (t : Styled) : String :=
  String.join (t.map fun (style, text) => if colour then style.apply text else text)

def pieces (t : Styled) : List Style.Piece := t.flatMap fun part => part.1.pieces part.2

theorem toList_toText (t : Styled) (colour : Bool) : (t.toText colour).toList =
    t.flatMap fun part => (if colour then part.1.apply part.2 else part.2).toList := by
  rw [toText, String.toList_join, List.flatMap_map]

theorem toList_toText_true (t : Styled) :
    (t.toText true).toList = t.pieces.flatMap Style.Piece.chars := by
  simp only [toList_toText, if_true, Style.toList_apply, pieces, List.flatMap_assoc]

theorem toList_toText_false (t : Styled) :
    (t.toText false).toList = t.flatMap fun part => part.2.toList := by
  simp only [toList_toText, Bool.false_eq_true, if_false]

variable {t : Styled}

theorem sound_pieces (h : ∀ part ∈ t, '\x1b' ∉ part.2.toList) : ∀ p ∈ t.pieces, p.Sound := by
  intro p hp
  obtain ⟨part, hpart, hp⟩ := List.mem_flatMap.mp hp
  exact Style.sound_pieces (h part hpart) p hp

/-- Without its sequences a coloured text is the plain one. -/
theorem withoutSequences_toText (h : ∀ part ∈ t, '\x1b' ∉ part.2.toList) :
    Text.withoutSequences (t.toText true).toList = (t.toText false).toList := by
  rw [toList_toText_true, Style.Piece.withoutSequences_pieces (sound_pieces h), toList_toText_false,
    pieces, List.flatMap_assoc]
  congr 1
  funext ⟨⟨bold, colour⟩, text⟩
  cases bold <;> cases colour <;> simp [Style.pieces]

theorem spansEnd_toText {oneLine : Prop} (h : ∀ part ∈ t, '\x1b' ∉ part.2.toList)
    (hline : ∀ part ∈ t, part.1 ≠ .plain → oneLine → '\n' ∉ part.2.toList) :
    Style.SpansEnd oneLine (t.toText true).toList := by
  rw [toList_toText_true]
  exact Style.Piece.Closed.spansEnd (sound_pieces h) (.flatMap fun part hpart =>
    Style.closed_pieces (hline part hpart))

end Styled

end MigrationAudit
