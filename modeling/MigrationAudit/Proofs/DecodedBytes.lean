import MigrationAudit.Proofs.Decoding
import MigrationAudit.Proofs.Malformed

namespace MigrationAudit.Text

theorem toByteArray_toList (bytes : ByteArray) : bytes.data.toList.toByteArray = bytes :=
  ByteArray.ext (by rw [List.data_toByteArray, Array.toArray_toList])

theorem toUTF8_eq_utf8Encode (s : String) : s.toUTF8 = s.toList.utf8Encode := by
  rw [String.toUTF8_eq_toByteArray, String.utf8Encode_toList]

/-- Any bytes are those of some characters, and then nothing or something malformed. -/
theorem exists_chars_append (bytes : List UInt8) :
    ∃ (cs : List Char) (rest : List UInt8), bytes = cs.flatMap String.utf8EncodeChar ++ rest ∧
      (rest = [] ∨ Malformed rest) := by
  -- The induction is on the length, as a code point takes off more than one byte.
  induction hlength : bytes.length using Nat.strongRecOn generalizing bytes with
  | ind n ih =>
    cases bytes with
    | nil => exact ⟨[], [], rfl, .inl rfl⟩
    | cons lead rest =>
      rcases malformed_or_exists_char lead rest with h | ⟨c, after, h⟩
      · exact ⟨[], lead :: rest, rfl, .inr h⟩
      · have hshorter : after.length < n := by
          rw [← hlength, h, List.length_append, String.length_utf8EncodeChar]
          exact Nat.lt_add_of_pos_left c.utf8Size_pos
        obtain ⟨cs, bad, rfl, hbad⟩ := ih after.length hshorter after rfl
        exact ⟨c :: cs, bad, by rw [h, List.flatMap_cons, List.append_assoc], hbad⟩

theorem isValidUTF8_toUTF8_append_iff {front : String} {rest : ByteArray} :
    (front.toUTF8 ++ rest).IsValidUTF8 ↔ rest.IsValidUTF8 := by
  rw [toUTF8_eq_utf8Encode]
  induction front.toList with
  | nil => simp
  | cons c cs ih =>
    rw [List.utf8Encode_cons, ByteArray.append_assoc,
      ByteArray.isValidUTF8_utf8Encode_singleton_append_iff, ih]

theorem isValidUTF8_toByteArray_iff {bytes : List UInt8} :
    bytes.toByteArray.IsValidUTF8 ↔ ∃ cs : List Char, bytes = cs.flatMap String.utf8EncodeChar := by
  constructor
  · rintro ⟨cs, h⟩
    exact ⟨cs, List.toByteArray_inj.mp h⟩
  · rintro ⟨cs, rfl⟩
    exact ⟨cs, rfl⟩

theorem not_isValidUTF8_of_malformed {rest : List UInt8} (h : Malformed rest) :
    ¬rest.toByteArray.IsValidUTF8 := by
  rw [isValidUTF8_toByteArray_iff]
  rintro ⟨cs, rfl⟩
  cases cs with
  | nil => exact absurd h nofun
  | cons c cs => exact not_malformed_of_eq List.flatMap_cons h

theorem not_isValidUTF8_iff {bytes : ByteArray} :
    ¬bytes.IsValidUTF8 ↔
      ∃ (front : String) (rest : List UInt8), bytes = front.toUTF8 ++ rest.toByteArray ∧
        Malformed rest := by
  constructor
  · intro h
    obtain ⟨cs, rest, hbytes, hrest⟩ := exists_chars_append bytes.data.toList
    have hsplit : bytes = (String.ofList cs).toUTF8 ++ rest.toByteArray := by
      rw [← toByteArray_toList bytes, hbytes, List.toByteArray_append, toUTF8_eq_utf8Encode,
        String.toList_ofList, List.utf8Encode]
    rcases hrest with rfl | hrest
    · refine absurd ?_ h
      rw [hsplit, isValidUTF8_toUTF8_append_iff]
      exact ByteArray.isValidUTF8_empty
    · exact ⟨_, rest, hsplit, hrest⟩
  · rintro ⟨front, rest, rfl, hrest⟩
    rw [isValidUTF8_toUTF8_append_iff]
    exact not_isValidUTF8_of_malformed hrest

/-- In a text a byte that continues nothing begins a code point, wherever it stands. -/
theorem exists_chars_of_lead {front rest : List UInt8} {lead : UInt8} (hlead : ¬isContinuation lead)
    {cs : List Char} (h : front ++ lead :: rest = cs.flatMap String.utf8EncodeChar) :
    ∃ cs' : List Char, lead :: rest = cs'.flatMap String.utf8EncodeChar := by
  induction cs generalizing front with
  | nil => simp at h
  | cons c cs ih =>
    cases front with
    | nil => exact ⟨c :: cs, h⟩
    | cons b front =>
      obtain ⟨first, follow, hchar, hseq, -, -⟩ := utf8EncodeChar_spells c
      rw [List.flatMap_cons, hchar, List.cons_append, List.cons_append, List.cons.injEq] at h
      -- The byte stands behind this code point, or it would be one of the bytes that continue it.
      rcases List.append_eq_append_iff.mp h.2 with ⟨gap, hfollow, hrest⟩ | ⟨gap, -, hcs⟩
      · cases gap with
        | nil =>
          have hnext : [] ++ lead :: rest = cs.flatMap String.utf8EncodeChar := hrest
          exact ih hnext
        | cons b gap =>
          obtain ⟨rfl, -⟩ := List.cons.inj hrest
          exact absurd (hseq.continuation lead (by simp [hfollow])) hlead
      · exact ih hcs.symm

def marked (t : String) : String := String.ofList (byteOrderMark :: t.toList)

theorem decode?_marked (t : String) : decode? (marked t).toUTF8 = some t := by
  rw [marked, toUTF8_mark_append, decode?_markBytes_append]

theorem eq_toUTF8_of_fromUTF8? {bytes : ByteArray} {s : String}
    (h : String.fromUTF8? bytes = some s) : bytes = s.toUTF8 := by
  unfold String.fromUTF8? at h
  split at h
  · obtain rfl := Option.some.inj h
    rfl
  · exact absurd h.symm (Option.some_ne_none s)

theorem decode?_eq_some_iff {bytes : ByteArray} {t : String} :
    decode? bytes = some t ↔
      bytes = (marked t).toUTF8 ∨ bytes = t.toUTF8 ∧ t.toList.head? ≠ some byteOrderMark := by
  constructor
  · intro h
    obtain ⟨s, hs, rfl⟩ := Option.map_eq_some_iff.mp h
    rw [eq_toUTF8_of_fromUTF8? hs]
    by_cases hhead : s.toList.head? = some byteOrderMark
    · obtain ⟨rest, hrest⟩ := List.head?_eq_some_iff.mp hhead
      have hmarked : s = marked (String.ofList rest) := by
        rw [marked, String.toList_ofList, ← hrest, String.ofList_toList]
      have hdrop : dropMark s = String.ofList rest := by rw [hmarked, marked, dropMark_mark]
      exact .inl (by rw [hdrop, ← hmarked])
    · right
      rw [dropMark_of_head? hhead]
      exact ⟨rfl, hhead⟩
  · rintro (rfl | ⟨rfl, hhead⟩)
    · exact decode?_marked t
    · exact decode?_toUTF8 hhead

/-- What decoding makes of some bytes. -/
structure Decodes (bytes : ByteArray) : Prop where
  some_iff : ∀ t : String, decode? bytes = some t ↔
    bytes = (marked t).toUTF8 ∨ bytes = t.toUTF8 ∧ t.toList.head? ≠ some byteOrderMark
  second_mark : ∀ t : String, bytes = (marked (marked t)).toUTF8 → decode? bytes = some (marked t)
  none_iff : decode? bytes = none ↔
    ∃ (front : String) (rest : List UInt8), bytes = front.toUTF8 ++ rest.toByteArray ∧
      Malformed rest
  /-- Where a byte is no continuation it does not matter what stands before it. -/
  none_of_lead : ∀ (front rest : List UInt8) (lead : UInt8),
    bytes = (front ++ lead :: rest).toByteArray →
    ¬isContinuation lead → Malformed (lead :: rest) → decode? bytes = none

/-- Decoding gives back what was encoded, one byte-order mark at its beginning aside, and it fails
on the bytes that are malformed somewhere, and on no others. -/
theorem decodes_all_bytes (bytes : ByteArray) : Decodes bytes where
  some_iff t := decode?_eq_some_iff
  second_mark t h := h ▸ decode?_marked (marked t)
  none_iff := by rw [decode?_eq_none_iff, not_isValidUTF8_iff]
  none_of_lead front rest lead hbytes hlead hmalformed := by
    rw [decode?_eq_none_iff, hbytes, isValidUTF8_toByteArray_iff]
    rintro ⟨cs, hcs⟩
    have hvalid := isValidUTF8_toByteArray_iff.mpr (exists_chars_of_lead hlead hcs)
    exact not_isValidUTF8_of_malformed hmalformed hvalid

/-- One way to be malformed each, behind a letter. -/
theorem decodes_all_bytes_malformed :
    ∀ bad ∈ [[0x80], [0xff], [0xe2, 0x82], [0xc0, 0x80], [0xed, 0xa0, 0x80],
      [0xf4, 0x90, 0x80, 0x80]],
      Malformed bad ∧ decode? ("a".toUTF8 ++ bad.toByteArray) = none := by
  intro bad hbad
  have hmalformed : Malformed bad := by
    simp only [List.mem_cons, List.not_mem_nil, or_false] at hbad
    rcases hbad with rfl | rfl | rfl | rfl | rfl | rfl
    · exact .stray (by decide)
    · exact .unused (by decide)
    · exact .truncated (show announced? 0xe2 = some 2 by decide) (by decide)
    · exact @Malformed.overlong 0xc0 [0x80] [] ⟨by decide, by decide +kernel⟩ (by decide +kernel)
    · exact @Malformed.surrogate 0xed [0xa0, 0x80] [] ⟨by decide, by decide +kernel⟩
        (by decide +kernel)
        (by decide +kernel)
    · exact @Malformed.tooLarge 0xf4 [0x90, 0x80, 0x80] [] ⟨by decide, by decide +kernel⟩
        (by decide +kernel)
  exact ⟨hmalformed, (decodes_all_bytes _).none_iff.mpr ⟨"a", bad, rfl, hmalformed⟩⟩

end MigrationAudit.Text
