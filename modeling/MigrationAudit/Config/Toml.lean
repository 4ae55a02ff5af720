import MigrationAudit.Config.Preferences
import MigrationAudit.Text.Search

/-! TOML as far as settings need it: keys at the top level whose values are texts or lists of texts.
Any other well-formed document is refused like a malformed one. -/

namespace MigrationAudit.Toml

/-- Characters that no document may contain. -/
def isControl (c : Char) : Bool := (c.toNat < 0x20 && c ≠ '\t') || c = '\x7f'

def isBlank (c : Char) : Bool := c = ' ' || c = '\t'

def isBareKey (c : Char) : Bool := c.isAlphanum || c = '_' || c = '-'

def hexValue? (c : Char) : Option Nat :=
  if c.isDigit then some (c.toNat - '0'.toNat)
  else if 'a' ≤ c ∧ c ≤ 'f' then some (c.toNat - 'a'.toNat + 10)
  else if 'A' ≤ c ∧ c ≤ 'F' then some (c.toNat - 'A'.toNat + 10)
  else none

/-- The character with the code point that the digits denote, if there is one. -/
def codePoint? (digits : List Char) : Option Char := do
  let n ← digits.foldlM (fun n c => return 16 * n + (← hexValue? c)) 0
  if h : n.isValidChar then some (Char.ofNatAux n h) else none

/-- The character that an escape stands for, and how many characters it takes after the
backslash. -/
def escape? : List Char → Option (Char × Nat)
  | 'b' :: _ => some ('\x08', 1)
  | 't' :: _ => some ('\t', 1)
  | 'n' :: _ => some ('\n', 1)
  | 'f' :: _ => some ('\x0c', 1)
  | 'r' :: _ => some ('\r', 1)
  | '"' :: _ => some ('"', 1)
  | '\\' :: _ => some ('\\', 1)
  | 'u' :: rest => if rest.length < 4 then none else (codePoint? (rest.take 4)).map (·, 5)
  | 'U' :: rest => if rest.length < 8 then none else (codePoint? (rest.take 8)).map (·, 9)
  | _ => none

/-- The text up to the closing quote, and what follows it. -/
def basic? (text : List Char) : Option (List Char × List Char) :=
  match text with
  | [] => none
  | '"' :: rest => some ([], rest)
  | '\\' :: rest => do
    let (c, n) ← escape? rest
    let (more, after) ← basic? (rest.drop n)
    return (c :: more, after)
  | c :: rest => do
    if isControl c then none
    let (more, after) ← basic? rest
    return (c :: more, after)
termination_by text.length
decreasing_by
  all_goals simp only [List.length_cons, List.length_drop]
  all_goals omega

def literal? : List Char → Option (List Char × List Char)
  | [] => none
  | '\'' :: rest => some ([], rest)
  | c :: rest => do
    if isControl c then none
    let (more, after) ← literal? rest
    return (c :: more, after)

/-- A text over several lines. Up to two quotes may stand directly before the closing three. A
backslash at the end of a line drops the blanks and line ends that follow, while `dropping`. -/
def basicLines? (dropping : Bool) (text : List Char) : Option (List Char × List Char) :=
  match text with
  | [] => none
  | '"' :: '"' :: '"' :: '"' :: '"' :: rest => some (['"', '"'], rest)
  | '"' :: '"' :: '"' :: '"' :: rest => some (['"'], rest)
  | '"' :: '"' :: '"' :: rest => some ([], rest)
  | '\r' :: '\n' :: rest => do
    let (more, after) ← basicLines? dropping rest
    return (if dropping then more else '\n' :: more, after)
  | '\n' :: rest => do
    let (more, after) ← basicLines? dropping rest
    return (if dropping then more else '\n' :: more, after)
  | '\\' :: rest =>
    match rest.dropWhile isBlank with
    | '\n' :: _ | '\r' :: '\n' :: _ => basicLines? true rest
    | _ => do
      let (c, n) ← escape? rest
      let (more, after) ← basicLines? false (rest.drop n)
      return (c :: more, after)
  | c :: rest => do
    if dropping && isBlank c then basicLines? true rest
    else if isControl c then none
    else
      let (more, after) ← basicLines? false rest
      return (c :: more, after)
termination_by text.length
decreasing_by
  all_goals simp only [List.length_cons, List.length_drop]
  all_goals omega

def literalLines? : List Char → Option (List Char × List Char)
  | [] => none
  | '\'' :: '\'' :: '\'' :: '\'' :: '\'' :: rest => some (['\'', '\''], rest)
  | '\'' :: '\'' :: '\'' :: '\'' :: rest => some (['\''], rest)
  | '\'' :: '\'' :: '\'' :: rest => some ([], rest)
  | '\r' :: '\n' :: rest => do
    let (more, after) ← literalLines? rest
    return ('\n' :: more, after)
  | c :: rest => do
    if isControl c ∧ c ≠ '\n' then none
    let (more, after) ← literalLines? rest
    return (c :: more, after)

/-- The text without one line end at its start. -/
def dropLineEnd : List Char → List Char
  | '\r' :: '\n' :: rest => rest
  | '\n' :: rest => rest
  | text => text

/-- A quoted text of any of the four kinds. -/
def text? : List Char → Option (String × List Char)
  | '"' :: '"' :: '"' :: rest => (basicLines? false (dropLineEnd rest)).map fun (s, r) =>
    (.ofList s, r)
  | '"' :: rest => (basic? rest).map fun (s, r) => (.ofList s, r)
  | '\'' :: '\'' :: '\'' :: rest => (literalLines? (dropLineEnd rest)).map fun (s, r) =>
    (.ofList s, r)
  | '\'' :: rest => (literal? rest).map fun (s, r) => (.ofList s, r)
  | _ => none

/-- Skips blanks and a comment. What follows has to be a line end or the end of the document. -/
def restOfLine? (text : List Char) : Option (List Char) :=
  let text := text.dropWhile isBlank
  let text := match text with
    | '#' :: rest => rest.dropWhile (!isControl ·)
    | _ => text
  match text with
  | [] | '\n' :: _ | '\r' :: '\n' :: _ => some text
  | _ => none

/-- Skips blanks, comments and line ends, as they may stand between the items of a list. -/
def gap? (text : List Char) : Option (List Char) :=
  match text with
  | ' ' :: rest | '\t' :: rest | '\n' :: rest => gap? rest
  | '\r' :: '\n' :: rest => gap? rest
  | '#' :: rest => gap? (rest.dropWhile (!isControl ·))
  | '\r' :: _ => none
  | text => some text
termination_by text.length
decreasing_by
  all_goals
    try have shorter := Text.length_dropWhile_le (!isControl ·) rest
    simp
    try omega

/-- The items of a list after its opening bracket; a comma may follow the last one. -/
def items? (text : List Char) : Option (List String × List Char) := do
  match ← gap? text with
  | ']' :: rest => return ([], rest)
  | start => do
    let (item, rest) ← text? start
    match ← gap? rest with
    | ']' :: rest => return ([item], rest)
    | ',' :: rest =>
      if rest.length < text.length then do
        let (items, rest) ← items? rest
        return (item :: items, rest)
      else none
    | _ => none
termination_by text.length

def value? : List Char → Option (Setting × List Char)
  | '[' :: rest => (items? rest).map fun (items, rest) => (.list items, rest)
  | text => (text? text).map fun (s, rest) => (.scalar (.quoted s), rest)

def key? : List Char → Option (String × List Char)
  | '"' :: rest => (basic? rest).map fun (s, r) => (.ofList s, r)
  | '\'' :: rest => (literal? rest).map fun (s, r) => (.ofList s, r)
  | text =>
    let key := text.takeWhile isBareKey
    if key.isEmpty then none else some (.ofList key, text.dropWhile isBareKey)

/-- A key, an equals sign and a value, up to the end of the line. -/
def field? (text : List Char) : Option ((String × Setting) × List Char) := do
  let (key, rest) ← key? text
  match rest.dropWhile isBlank with
  | '=' :: rest => do
    let (value, rest) ← value? (rest.dropWhile isBlank)
    return ((key, value), ← restOfLine? rest)
  | _ => none

def fields? (text : List Char) : Option (List (String × Setting)) := do
  match ← gap? text with
  | [] => return []
  | start => do
    let (field, rest) ← field? start
    if rest.length < text.length then return field :: (← fields? rest) else none
termination_by text.length

/-- The settings of a document; a byte-order mark may stand at its start. -/
def parse (document : String) : Except ConfigFault Preferences :=
  let text := match document.toList with
    | '\uFEFF' :: rest => rest
    | text => text
  match fields? text with
  | some fields => Preferences.ofFields fields
  | none => .error .malformed

end MigrationAudit.Toml
