namespace MigrationAudit

/-- A JSON document whose numbers are naturals; the fields of an object keep their order. -/
inductive Json where
  | null
  | bool (value : Bool)
  | number (value : Nat)
  | text (value : String)
  | array (items : List Json)
  | object (fields : List (String × Json))

namespace Json

def ofOption {α : Type} (f : α → Json) : Option α → Json
  | some a => f a
  | none => null

def hexDigit (n : Nat) : Char := "0123456789abcdef".toList.getD n '0'

/-- How a character stands inside a quoted text. -/
def quoteChar (c : Char) : List Char :=
  if c = '"' then ['\\', '"']
  else if c = '\\' then ['\\', '\\']
  else if c = '\n' then ['\\', 'n']
  else if c = '\r' then ['\\', 'r']
  else if c = '\t' then ['\\', 't']
  else if c = '\x08' then ['\\', 'b']
  else if c = '\x0c' then ['\\', 'f']
  else if c.toNat < 0x20 then
    ['\\', 'u', '0', '0', hexDigit (c.toNat / 16), hexDigit (c.toNat % 16)]
  else [c]

def quote (s : String) : String := "\"" ++ String.ofList (s.toList.flatMap quoteChar) ++ "\""

def lineAt (depth : Nat) : String := "\n" ++ String.ofList (List.replicate (2 * depth) ' ')

mutual

/-- The document over several lines, each level indented by two more blanks. -/
def pretty (depth : Nat) : Json → String
  | null => "null"
  | bool b => if b then "true" else "false"
  | number n => toString n
  | text s => quote s
  | array [] => "[]"
  | array (item :: items) =>
    "[" ++ lineAt (depth + 1) ++ item.pretty (depth + 1) ++ prettyItems depth items
  | object [] => "\x7b\x7d"
  | object (field :: fields) =>
    "\x7b" ++ lineAt (depth + 1) ++ prettyField (depth + 1) field ++ prettyFields depth fields

def prettyItems (depth : Nat) : List Json → String
  | [] => lineAt depth ++ "]"
  | item :: items => "," ++ lineAt (depth + 1) ++ item.pretty (depth + 1) ++ prettyItems depth items

def prettyField (depth : Nat) : String × Json → String
  | (name, value) => quote name ++ ": " ++ value.pretty depth

def prettyFields (depth : Nat) : List (String × Json) → String
  | [] => lineAt depth ++ "\x7d"
  | field :: fields =>
    "," ++ lineAt (depth + 1) ++ prettyField (depth + 1) field ++ prettyFields depth fields

end

end Json

end MigrationAudit
