import MigrationAudit.Config.Toml
import Mathlib.Tactic.Ring

namespace MigrationAudit

namespace Toml

def hex : Nat → Nat → List Char
  | 0, _ => []
  | count + 1, n => hex count (n / 16) ++ [Nat.digitChar (n % 16)]

theorem length_hex (count n : Nat) : (hex count n).length = count := by
  induction count generalizing n with
  | zero => rfl
  | succ count ih => rw [hex, List.length_append, ih, List.length_singleton]

theorem hexValue?_digitChar {d : Nat} (h : d < 16) : hexValue? (Nat.digitChar d) = some d := by
  have hall : ∀ d : Fin 16, hexValue? (Nat.digitChar d) = some d.val := by decide
  exact hall ⟨d, h⟩

theorem foldlM_hex (count n start : Nat) :
    (hex count n).foldlM (fun n c => return 16 * n + (← hexValue? c)) start =
      some (start * 16 ^ count + n % 16 ^ count) := by
  induction count generalizing n with
  | zero => simp [hex, Nat.mod_one]
  | succ count ih =>
    have hdigit := hexValue?_digitChar (Nat.mod_lt n (show 0 < 16 by decide))
    have hmod : n % 16 ^ (count + 1) = 16 * (n / 16 % 16 ^ count) + n % 16 := by
      rw [Nat.pow_succ, Nat.mul_comm, Nat.mod_mul, Nat.add_comm]
    rw [hex, List.foldlM_append, ih, hmod]
    simp [hdigit]
    ring

theorem codePoint?_hex (c : Char) : codePoint? (hex 8 c.toNat) = some c := by
  have hvalid : c.toNat.isValidChar := c.valid
  have hsmall : c.toNat % 16 ^ 8 = c.toNat := Nat.mod_eq_of_lt c.val.toNat_lt
  rw [codePoint?, foldlM_hex, Nat.zero_mul, Nat.zero_add, hsmall]
  exact dif_pos hvalid

end Toml

/-! Settings files that are written field by field, in a way that both formats can read. -/

namespace Written

def isHarmless (c : Char) : Bool := 0x20 < c.toNat && c.toNat < 0x7F && c ≠ '"' && c ≠ '\\'

def escaped (c : Char) : List Char :=
  if isHarmless c then [c] else '\\' :: 'U' :: Toml.hex 8 c.toNat

def closed (text : List Char) : List Char := text.flatMap escaped ++ ['"']

def quoted (text : String) : List Char := '"' :: closed text.toList

def items (texts : List String) : List Char :=
  texts.flatMap (fun text => quoted text ++ [',']) ++ [']']

inductive Value where
  | text (s : String)
  | list (texts : List String)

def Value.chars : Value → List Char
  | text s => quoted s
  | list texts => '[' :: items texts

def Value.setting : Value → Setting
  | text s => .scalar (.quoted s)
  | list texts => .list texts

def lines (separator : List Char) (fields : List (String × Value)) : List Char :=
  fields.flatMap fun (key, value) => quoted key ++ (separator ++ (value.chars ++ ['\n']))

def settings (fields : List (String × Value)) : List (String × Setting) :=
  fields.map fun (key, value) => (key, value.setting)

theorem closed_cons_append {c : Char} {text rest : List Char} :
    closed (c :: text) ++ rest = escaped c ++ (closed text ++ rest) := by
  simp [closed]

theorem items_cons_append {s : String} {texts : List String} {rest : List Char} :
    items (s :: texts) ++ rest = quoted s ++ ',' :: (items texts ++ rest) := by
  simp [items]

theorem lines_cons {separator : List Char} {key : String} {value : Value}
    {fields : List (String × Value)} : lines separator ((key, value) :: fields) =
      quoted key ++ (separator ++ (value.chars ++ '\n' :: lines separator fields)) := by
  simp [lines]

end Written

end MigrationAudit
