import Mathlib.Algebra.Group.Nat.Defs
import Mathlib.Tactic.SplitIfs

namespace MigrationAudit.Text

def bytes (s : String) : List UInt8 := s.toUTF8.data.toList

def followers (v : Nat) : Nat :=
  if v ≤ 0x7f then 0 else if v ≤ 0x7ff then 1 else if v ≤ 0xffff then 2 else 3

def leadMark : Nat → Nat
  | 0 => 0
  | 1 => 0xc0
  | 2 => 0xe0
  | _ => 0xf0

def tailBytes (v : Nat) : Nat → List UInt8
  | 0 => []
  | n + 1 => UInt8.ofNat (v / 64 ^ n % 64 + 0x80) :: tailBytes v n

theorem ofNat_cons_lt {a b : Nat} {x y : List UInt8} (hb : b < 256) (h : a < b ∨ a = b ∧ x < y) :
    UInt8.ofNat a :: x < UInt8.ofNat b :: y := by
  have ha : a < 256 := by omega
  rw [List.cons_lt_cons_iff, UInt8.lt_iff_toNat_lt, ← UInt8.toNat_inj, UInt8.toNat_ofNat_of_lt' ha,
    UInt8.toNat_ofNat_of_lt' hb]
  exact h

theorem codePoint_le (c : Char) : c.val.toNat ≤ 0x10ffff := by
  rcases c.valid with h | h
  · have hv : c.val.toNat < 0xd800 := h
    omega
  · have hv : c.val.toNat < 0x110000 := h.2
    omega

/-- Numbers compare by what stands before their low digits, then by those. -/
theorem digits_lt {m a b r s : Nat} (hs : s < m) (h : r + m * a < s + m * b) :
    a < b ∨ a = b ∧ r < s := by
  rcases Nat.lt_trichotomy a b with hlt | rfl | hgt
  · exact .inl hlt
  · exact .inr ⟨rfl, by omega⟩
  · have hmul : m * (b + 1) ≤ m * a := Nat.mul_le_mul_left m hgt
    rw [Nat.mul_succ] at hmul
    omega

theorem tailBytes_append_lt {v w n : Nat} (x y : List UInt8) (h : v % 64 ^ n < w % 64 ^ n) :
    tailBytes v n ++ x < tailBytes w n ++ y := by
  induction n with
  | zero => omega
  | succ n ih =>
    rw [Nat.pow_succ, Nat.mod_mul, Nat.mod_mul] at h
    have hlow : w % 64 ^ n < 64 ^ n := Nat.mod_lt w (Nat.pow_pos (by decide))
    rw [tailBytes, tailBytes, List.cons_append, List.cons_append]
    refine ofNat_cons_lt (by omega) ?_
    rcases digits_lt hlow h with hlt | ⟨heq, hlt⟩
    · exact .inl (by omega)
    · exact .inr ⟨by omega, ih hlt⟩

theorem utf8EncodeChar_eq (c : Char) :
    String.utf8EncodeChar c =
      UInt8.ofNat (c.val.toNat / 64 ^ followers c.val.toNat + leadMark (followers c.val.toNat)) ::
        tailBytes c.val.toNat (followers c.val.toNat) := by
  have hmax : c.val.toNat ≤ 0x10ffff := codePoint_le c
  unfold String.utf8EncodeChar followers
  generalize c.val.toNat = v at *
  simp only []
  split_ifs with hone htwo hthree
  · simp [tailBytes, leadMark]
  · have hlead : v / 64 % 32 = v / 64 := Nat.mod_eq_of_lt (by omega)
    simp [tailBytes, leadMark, hlead]
  · have hlead : v / 4096 % 16 = v / 4096 := Nat.mod_eq_of_lt (by omega)
    simp [tailBytes, leadMark, hlead]
  · have hlead : v / 262144 % 8 = v / 262144 := Nat.mod_eq_of_lt (by omega)
    simp [tailBytes, leadMark, hlead]

theorem utf8EncodeChar_append_lt {c d : Char} (h : c < d) (x y : List UInt8) :
    String.utf8EncodeChar c ++ x < String.utf8EncodeChar d ++ y := by
  have hlt : c.val.toNat < d.val.toNat := h
  have hmax : d.val.toNat ≤ 0x10ffff := codePoint_le d
  rw [utf8EncodeChar_eq, utf8EncodeChar_eq, List.cons_append, List.cons_append]
  generalize c.val.toNat = v at *
  generalize d.val.toNat = w at *
  -- With as many bytes the bits decide, else the mark in the first byte.
  by_cases hsame : followers v = followers w
  · rw [hsame]
    refine ofNat_cons_lt ?_ ?_
    · unfold followers
      split_ifs <;> simp only [leadMark] <;> omega
    · have hlow : w % 64 ^ followers w < 64 ^ followers w := Nat.mod_lt w (Nat.pow_pos (by decide))
      have hsplit : v % 64 ^ followers w + 64 ^ followers w * (v / 64 ^ followers w) <
          w % 64 ^ followers w + 64 ^ followers w * (w / 64 ^ followers w) := by
        rw [Nat.mod_add_div, Nat.mod_add_div]
        exact hlt
      rcases digits_lt hlow hsplit with hlead | ⟨hlead, htail⟩
      · exact .inl (by omega)
      · exact .inr ⟨by omega, tailBytes_append_lt x y htail⟩
  · refine ofNat_cons_lt ?_ (.inl ?_)
    · unfold followers
      split_ifs <;> simp only [leadMark] <;> omega
    · revert hsame
      unfold followers
      split_ifs <;> intro hsame <;> simp only [leadMark] <;> omega

theorem flatMap_utf8EncodeChar_lt {a b : List Char} (h : a < b) :
    a.flatMap String.utf8EncodeChar < b.flatMap String.utf8EncodeChar := by
  induction a generalizing b with
  | nil =>
    cases b with
    | nil => exact absurd h (List.not_lt_nil _)
    | cons d b =>
      rw [List.flatMap_cons, utf8EncodeChar_eq]
      exact List.nil_lt_cons _ _
  | cons c a ih =>
    cases b with
    | nil => exact absurd h (List.not_lt_nil _)
    | cons d b =>
      rw [List.flatMap_cons, List.flatMap_cons]
      rcases List.cons_lt_cons_iff.mp h with hlt | ⟨rfl, hlt⟩
      · exact utf8EncodeChar_append_lt hlt _ _
      · exact List.append_left_lt (ih hlt)

theorem bytes_eq (s : String) : bytes s = s.toList.flatMap String.utf8EncodeChar := by
  rw [bytes, String.toUTF8_eq_toByteArray, ← String.utf8Encode_toList, List.utf8Encode,
    List.data_toByteArray]

/-- Texts in the order of their characters are in the order of their bytes. -/
theorem bytes_lt_of_lt {s t : String} (h : s < t) : bytes s < bytes t := by
  rw [bytes_eq, bytes_eq]
  exact flatMap_utf8EncodeChar_lt h

end MigrationAudit.Text
