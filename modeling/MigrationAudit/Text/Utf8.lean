namespace MigrationAudit.Text

def byteOrderMark : Char := '\uFEFF'

/-- The text without one byte-order mark at its start. -/
def dropMark (s : String) : String :=
  match s.toList with
  | c :: rest => if c = byteOrderMark then String.ofList rest else s
  | [] => s

/-- The text that the bytes encode in UTF-8; a leading byte-order mark is no part of it. -/
def decode? (bytes : ByteArray) : Option String := (String.fromUTF8? bytes).map dropMark

end MigrationAudit.Text
