import MigrationAudit.Proofs.ByteOrder
import Mathlib.Data.List.TakeWhile

namespace MigrationAudit.Text

def isContinuation (b : UInt8) : Bool := 0x80 ≤ b && b < 0xc0

/-- How many bytes are to follow a byte, by the ones that it begins with. -/
def announced? (lead : UInt8) : Option Nat :=
  if lead < 0x80 then some 0
  else if lead < 0xc0 then none
  else if lead < 0xe0 then some 1
  else if lead < 0xf0 then some 2
  else if lead < 0xf8 then some 3
  else none

/-- The number that is made of leading bits and six more from each byte. -/
def number (bits : Nat) (tail : List UInt8) : Nat :=
  tail.foldl (fun n b => 64 * n + (b.toNat - 0x80)) bits

/-- A byte with as many continuation bytes as it announces, whatever number they spell. -/
structure IsSequence (lead : UInt8) (tail : List UInt8) : Prop where
  announced : announced? lead = some tail.length
  continuation : ∀ b ∈ tail, isContinuation b

def spelled (lead : UInt8) (tail : List UInt8) : Nat :=
  number (lead.toNat - leadMark tail.length) tail

/-- Bytes that cannot go on a text, by what is wrong at their beginning. -/
inductive Malformed : List UInt8 → Prop where
  | stray {b : UInt8} {rest : List UInt8} : isContinuation b → Malformed (b :: rest)
  | unused {b : UInt8} {rest : List UInt8} : 0xf8 ≤ b → Malformed (b :: rest)
  | truncated {lead : UInt8} {rest : List UInt8} {n : Nat} : announced? lead = some n →
      (rest.takeWhile isContinuation).length < n → Malformed (lead :: rest)
  /-- Fewer bytes would do. -/
  | overlong {lead : UInt8} {tail rest : List UInt8} : IsSequence lead tail →
      followers (spelled lead tail) < tail.length → Malformed (lead :: (tail ++ rest))
  | surrogate {lead : UInt8} {tail rest : List UInt8} : IsSequence lead tail →
      0xd800 ≤ spelled lead tail → spelled lead tail ≤ 0xdfff → Malformed (lead :: (tail ++ rest))
  | tooLarge {lead : UInt8} {tail rest : List UInt8} : IsSequence lead tail →
      0x10ffff < spelled lead tail → Malformed (lead :: (tail ++ rest))

theorem isContinuation_iff {b : UInt8} : isContinuation b ↔ 0x80 ≤ b.toNat ∧ b.toNat < 0xc0 := by
  simp only [isContinuation, Bool.and_eq_true, decide_eq_true_eq, UInt8.le_iff_toNat_le,
    UInt8.lt_iff_toNat_lt]
  rfl

theorem number_cons (bits : Nat) (b : UInt8) (tail : List UInt8) :
    number bits (b :: tail) = number (64 * bits + (b.toNat - 0x80)) tail := by
  rw [number, number, List.foldl_cons]

theorem ofNat_eq_of_toNat {b : UInt8} {n : Nat} (h : b.toNat = n) : UInt8.ofNat n = b := by
  rw [← h, UInt8.ofNat_toNat]

/-- What follows in a number is read off its low digits, and the leading bits off the rest. -/
theorem tailBytes_number {tail : List UInt8} (h : ∀ b ∈ tail, isContinuation b) (bits : Nat) :
    tailBytes (number bits tail) tail.length = tail ∧
      number bits tail / 64 ^ tail.length = bits := by
  induction tail generalizing bits with
  | nil => exact ⟨rfl, Nat.div_one bits⟩
  | cons b tail ih =>
    obtain ⟨hb, htail⟩ := List.forall_mem_cons.mp h
    obtain ⟨hlow, hhigh⟩ := isContinuation_iff.mp hb
    obtain ⟨hrest, hbits⟩ := ih htail (64 * bits + (b.toNat - 0x80))
    rw [number_cons, List.length_cons, tailBytes, hrest, hbits, Nat.pow_succ,
      ← Nat.div_div_eq_div_mul, hbits]
    constructor
    · rw [ofNat_eq_of_toNat (b := b) (by omega)]
    · omega

theorem length_tailBytes (v n : Nat) : (tailBytes v n).length = n := by
  induction n with
  | zero => rfl
  | succ n ih => rw [tailBytes, List.length_cons, ih]

theorem toNat_tailByte (v n : Nat) :
    (UInt8.ofNat (v / 64 ^ n % 64 + 0x80)).toNat = v / 64 ^ n % 64 + 0x80 := by
  have hlt : v / 64 ^ n % 64 + 0x80 < 256 := by omega
  rw [UInt8.toNat_ofNat_of_lt' hlt]

theorem isContinuation_of_mem_tailBytes {v n : Nat} {b : UInt8} (h : b ∈ tailBytes v n) :
    isContinuation b := by
  induction n with
  | zero => exact absurd h List.not_mem_nil
  | succ n ih =>
    rcases List.mem_cons.mp h with rfl | h
    · rw [isContinuation_iff, toNat_tailByte]
      omega
    · exact ih h

theorem number_tailBytes (v n bits : Nat) :
    number bits (tailBytes v n) = 64 ^ n * bits + v % 64 ^ n := by
  induction n generalizing bits with
  | zero => simp [number, tailBytes, Nat.mod_one]
  | succ n ih =>
    rw [tailBytes, number_cons, toNat_tailByte, Nat.add_sub_cancel, ih, Nat.pow_succ, Nat.mod_mul,
      Nat.mul_add, Nat.mul_assoc]
    omega

section Sequences

variable {lead : UInt8} {tail rest : List UInt8} {n v : Nat}

/-- How many values the bits of a first byte can have, by the number of bytes that follow. -/
def leadRoom : Nat → Nat
  | 0 => 0x80
  | 1 => 0x20
  | 2 => 0x10
  | _ => 0x8

theorem announced?_eq_some_iff :
    announced? lead = some n ↔
      n ≤ 3 ∧ leadMark n ≤ lead.toNat ∧ lead.toNat < leadMark n + leadRoom n := by
  simp only [announced?, UInt8.lt_iff_toNat_lt, UInt8.reduceToNat]
  match n with
  | 0 | 1 | 2 | 3 =>
    simp only [leadMark, leadRoom]
    split_ifs <;> simp <;> omega
  | n + 4 => split_ifs <;> simp

theorem announced?_eq_none_iff : announced? lead = none ↔ isContinuation lead ∨ 0xf8 ≤ lead := by
  simp only [announced?, isContinuation_iff, UInt8.lt_iff_toNat_lt, UInt8.le_iff_toNat_le,
    UInt8.reduceToNat]
  split_ifs <;> simp <;> omega

theorem followers_le_of_div_lt (hn : n ≤ 3) (h : v / 64 ^ n < leadRoom n) : followers v ≤ n := by
  unfold followers
  match n, hn with
  | 0, _ | 1, _ | 2, _ | 3, _ =>
    simp only [leadRoom] at h
    split_ifs <;> omega

theorem followers_le_three (v : Nat) : followers v ≤ 3 := by
  unfold followers
  split_ifs <;> omega

theorem div_followers_lt (h : v ≤ 0x10ffff) : v / 64 ^ followers v < leadRoom (followers v) := by
  unfold followers
  split_ifs <;> simp only [leadRoom] <;> omega

theorem toNat_leadByte (hn : n ≤ 3) (h : v / 64 ^ n < leadRoom n) :
    (UInt8.ofNat (v / 64 ^ n + leadMark n)).toNat = v / 64 ^ n + leadMark n := by
  have hlt : v / 64 ^ n + leadMark n < 256 := by
    match n, hn with
    | 0, _ | 1, _ | 2, _ | 3, _ =>
      simp only [leadRoom, leadMark] at *
      omega
  rw [UInt8.toNat_ofNat_of_lt' hlt]

/-- A code point is written as a sequence that spells it, of the least length. -/
theorem utf8EncodeChar_spells (c : Char) :
    ∃ lead tail, String.utf8EncodeChar c = lead :: tail ∧ IsSequence lead tail ∧
      spelled lead tail = c.val.toNat ∧ tail.length = followers c.val.toNat := by
  have hmax : c.val.toNat ≤ 0x10ffff := codePoint_le c
  refine ⟨_, _, utf8EncodeChar_eq c, ?_⟩
  generalize c.val.toNat = v at *
  have hroom : v / 64 ^ followers v < leadRoom (followers v) := div_followers_lt hmax
  have hthree := followers_le_three v
  have hlength := length_tailBytes v (followers v)
  have hlead := toNat_leadByte hthree hroom
  refine ⟨⟨?_, fun b => isContinuation_of_mem_tailBytes⟩, ?_, hlength⟩
  · rw [hlength, announced?_eq_some_iff, hlead, Nat.add_comm]
    exact ⟨hthree, Nat.le_add_right _ _, Nat.add_lt_add_left hroom _⟩
  · rw [spelled, hlength, hlead, Nat.add_sub_cancel, number_tailBytes, Nat.div_add_mod]

/-- A sequence that spells a code point and could not be shorter is how that code point is
written. -/
theorem exists_utf8EncodeChar (h : IsSequence lead tail)
    (least : tail.length ≤ followers (spelled lead tail))
    (valid : (spelled lead tail).isValidChar) : ∃ c, String.utf8EncodeChar c = lead :: tail := by
  obtain ⟨htail, hbits⟩ := tailBytes_number h.continuation (lead.toNat - leadMark tail.length)
  obtain ⟨hthree, hmark, hroom⟩ := announced?_eq_some_iff.mp h.announced
  have hfollowers : followers (spelled lead tail) = tail.length := by
    refine Nat.le_antisymm (followers_le_of_div_lt hthree ?_) least
    rw [spelled, hbits]
    omega
  refine ⟨Char.ofNatAux (spelled lead tail) valid, ?_⟩
  have hval : (Char.ofNatAux (spelled lead tail) valid).val.toNat = spelled lead tail := rfl
  rw [utf8EncodeChar_eq, hval, hfollowers, spelled, htail, hbits, Nat.sub_add_cancel hmark,
    UInt8.ofNat_toNat]

theorem IsSequence.append_inj {tail' rest' : List UInt8} (h : IsSequence lead tail)
    (h' : IsSequence lead tail') (heq : tail ++ rest = tail' ++ rest') : tail = tail' := by
  have hlength : tail.length = tail'.length := Option.some.inj (h.announced.symm.trans h'.announced)
  exact (List.append_inj heq hlength).1

/-- What begins with a code point begins with the sequence that spells it. -/
theorem exists_sequence_of_eq {c : Char} {after : List UInt8}
    (h : lead :: rest = String.utf8EncodeChar c ++ after) :
    ∃ tail, rest = tail ++ after ∧ IsSequence lead tail ∧ spelled lead tail = c.val.toNat ∧
      tail.length = followers c.val.toNat := by
  obtain ⟨first, tail, hchar, hseq, hspelled, hleast⟩ := utf8EncodeChar_spells c
  rw [hchar, List.cons_append] at h
  obtain ⟨rfl, hrest⟩ := List.cons.inj h
  exact ⟨tail, hrest, hseq, hspelled, hleast⟩

theorem not_malformed_of_eq {bytes after : List UInt8} {c : Char}
    (hbytes : bytes = String.utf8EncodeChar c ++ after) : ¬Malformed bytes := by
  intro h
  cases h with
  | stray hb =>
    obtain ⟨tail, -, hseq, -⟩ := exists_sequence_of_eq hbytes
    exact Option.some_ne_none _ (hseq.announced.symm.trans (announced?_eq_none_iff.mpr (.inl hb)))
  | unused hb =>
    obtain ⟨tail, -, hseq, -⟩ := exists_sequence_of_eq hbytes
    exact Option.some_ne_none _ (hseq.announced.symm.trans (announced?_eq_none_iff.mpr (.inr hb)))
  | truncated hn hshort =>
    obtain ⟨tail, rfl, hseq, -⟩ := exists_sequence_of_eq hbytes
    rw [hseq.announced, Option.some_inj] at hn
    rw [List.takeWhile_append_of_pos hseq.continuation, List.length_append] at hshort
    omega
  | overlong hs hshort =>
    obtain ⟨tail, htail, hseq, hspelled, hleast⟩ := exists_sequence_of_eq hbytes
    obtain rfl := hs.append_inj hseq htail
    rw [hspelled] at hshort
    omega
  | surrogate hs hlow hhigh =>
    obtain ⟨tail, htail, hseq, hspelled, -⟩ := exists_sequence_of_eq hbytes
    obtain rfl := hs.append_inj hseq htail
    rw [hspelled] at hlow hhigh
    have hvalid : c.val.toNat < 0xd800 ∨ 0xdfff < c.val.toNat ∧ c.val.toNat < 0x110000 := c.valid
    omega
  | tooLarge hs hlarge =>
    obtain ⟨tail, htail, hseq, hspelled, -⟩ := exists_sequence_of_eq hbytes
    obtain rfl := hs.append_inj hseq htail
    rw [hspelled] at hlarge
    have hmax : c.val.toNat ≤ 0x10ffff := codePoint_le c
    omega

/-- A byte that is followed by enough continuation bytes begins a sequence. -/
theorem exists_isSequence (hn : announced? lead = some n)
    (h : n ≤ (rest.takeWhile isContinuation).length) :
    ∃ tail after, rest = tail ++ after ∧ IsSequence lead tail := by
  have hwhole := List.takeWhile_prefix isContinuation (l := rest)
  have hlength : (rest.take n).length = n := List.length_take_of_le (h.trans hwhole.length_le)
  have htake : rest.take n <+: rest.takeWhile isContinuation :=
    List.prefix_of_prefix_length_le (List.take_prefix n rest) hwhole (hlength.trans_le h)
  refine ⟨rest.take n, rest.drop n, (List.take_append_drop n rest).symm, ?_, fun b hb => ?_⟩
  · rw [hn, hlength]
  · exact List.mem_takeWhile_imp (htake.subset hb)

/-- A byte begins a code point, or what begins with it is malformed. -/
theorem malformed_or_exists_char (lead : UInt8) (rest : List UInt8) :
    Malformed (lead :: rest) ∨ ∃ c after, lead :: rest = String.utf8EncodeChar c ++ after := by
  cases hn : announced? lead with
  | none =>
    rcases announced?_eq_none_iff.mp hn with h | h
    · exact .inl (.stray h)
    · exact .inl (.unused h)
  | some n =>
    by_cases hshort : (rest.takeWhile isContinuation).length < n
    · exact .inl (.truncated hn hshort)
    obtain ⟨tail, after, rfl, hseq⟩ := exists_isSequence hn (Nat.le_of_not_lt hshort)
    by_cases hleast : followers (spelled lead tail) < tail.length
    · exact .inl (.overlong hseq hleast)
    by_cases hlarge : 0x10ffff < spelled lead tail
    · exact .inl (.tooLarge hseq hlarge)
    by_cases hsurrogate : 0xd800 ≤ spelled lead tail ∧ spelled lead tail ≤ 0xdfff
    · exact .inl (.surrogate hseq hsurrogate.1 hsurrogate.2)
    have valid : (spelled lead tail).isValidChar := by
      unfold Nat.isValidChar
      omega
    obtain ⟨c, hc⟩ := exists_utf8EncodeChar hseq (Nat.le_of_not_lt hleast) valid
    exact .inr ⟨c, after, by rw [hc, List.cons_append]⟩

end Sequences

end MigrationAudit.Text
