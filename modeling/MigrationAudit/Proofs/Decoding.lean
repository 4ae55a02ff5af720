import MigrationAudit.Text.Utf8

namespace MigrationAudit.Text

def markBytes : ByteArray := ⟨#[0xEF, 0xBB, 0xBF]⟩

theorem toUTF8_mark_append (t : String) :
    (String.ofList (byteOrderMark :: t.toList)).toUTF8 = markBytes ++ t.toUTF8 := by
  have hmark : [byteOrderMark].utf8Encode = markBytes := by decide +kernel
  rw [String.toUTF8_eq_toByteArray, String.toByteArray_ofList, List.utf8Encode_cons, hmark,
    String.utf8Encode_toList, String.toUTF8_eq_toByteArray]

theorem fromUTF8?_toUTF8 (t : String) : String.fromUTF8? t.toUTF8 = some t := by
  rw [String.fromUTF8?, String.toUTF8_eq_toByteArray, dif_pos t.isValidUTF8]
  rfl

theorem dropMark_mark (t : String) : dropMark (String.ofList (byteOrderMark :: t.toList)) = t := by
  simp [dropMark]

theorem dropMark_of_head? {t : String} (h : t.toList.head? ≠ some byteOrderMark) :
    dropMark t = t := by
  unfold dropMark
  cases ht : t.toList with
  | nil => rfl
  | cons c rest =>
    have hc : c ≠ byteOrderMark := by simpa [ht] using h
    simp [hc]

theorem decode?_eq_none_iff {bytes : ByteArray} : decode? bytes = none ↔ ¬ bytes.IsValidUTF8 := by
  rw [decode?, Option.map_eq_none_iff, String.fromUTF8?]
  split
  · next h => simp [h]
  · next h => simp [h]

theorem decode?_toUTF8 {t : String} (h : t.toList.head? ≠ some byteOrderMark) :
    decode? t.toUTF8 = some t := by
  rw [decode?, fromUTF8?_toUTF8, Option.map_some, dropMark_of_head? h]

theorem decode?_markBytes_append (t : String) : decode? (markBytes ++ t.toUTF8) = some t := by
  rw [decode?, ← toUTF8_mark_append, fromUTF8?_toUTF8, Option.map_some, dropMark_mark]

end MigrationAudit.Text
