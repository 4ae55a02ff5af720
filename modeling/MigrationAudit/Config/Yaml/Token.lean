import MigrationAudit.Config.Yaml.Scalar

/-! The tokens of a YAML document. Indentation is turned into tokens that open and close blocks, and
a key is recognized when the colon after it is met. -/

namespace MigrationAudit.Yaml

inductive Token where
  | version
  | tagDirective (handle expansion : String)
  | documentStart
  | documentEnd
  | blockSequence
  | blockMapping
  | blockEnd
  | flowSequence
  | flowSequenceEnd
  | flowMapping
  | flowMappingEnd
  | blockEntry
  | flowEntry
  | key
  | value
  | alias (name : String)
  | anchor (name : String)
  | tag (handle suffix : String)
  | scalar (text : String) (plain : Bool)
  deriving DecidableEq, Repr

/-- Where a key may have begun: the number of the token, the place, and whether it has to be a
key. -/
structure KeyStart where
  token : Nat
  mark : Mark
  required : Bool
  deriving Repr

/-- A scan in progress. The level is one more than the column of the innermost open block, zero
outside of all blocks. There is one entry in `keys` for each open bracket and one for the blocks,
innermost first. -/
structure Scan where
  mark : Mark
  rest : List Char
  tokens : List Token
  level : Nat
  outer : List Nat
  keyAllowed : Bool
  keys : List (Option KeyStart)
  deriving Repr

namespace Scan

def start (text : List Char) : Scan := ⟨⟨0, 0, 0⟩, text, [], 0, [], true, [none]⟩

def inFlow (s : Scan) : Bool := s.keys.length > 1

def emit (s : Scan) (t : Token) : Scan := { s with tokens := s.tokens ++ [t] }

/-- Goes past `n` characters of the line. -/
def skip (s : Scan) (n : Nat) : Scan := { s with mark := s.mark.advance n, rest := s.rest.drop n }

/-- Goes on after a text was found. -/
def after (s : Scan) (m : Mark) (rest : List Char) : Scan := { s with mark := m, rest }

def allowKey (s : Scan) (allowed : Bool) : Scan := { s with keyAllowed := allowed }

/-- Skips blanks, comments and line ends before a token. A tab is no blank where a key may begin. -/
def toToken (s : Scan) : Scan :=
  match _ : s.rest with
  | [] => s
  | c :: rest =>
    if c = ' ' || c = '\t' && (s.inFlow || !s.keyAllowed) || c = '\uFEFF' && s.mark.column = 0 then
      toToken (s.after (s.mark.advance 1) rest)
    else if c = '#' then
      let comment := rest.takeWhile (!isBreak ·)
      toToken (s.after (s.mark.advance (comment.length + 1)) (rest.drop comment.length))
    else if isBreak c then
      let (_, n) := lineEnd c rest
      let next := s.after (s.mark.nextLine (n + 1)) (rest.drop n)
      toToken (if next.inFlow then next else next.allowKey true)
    else s
termination_by s.rest.length
decreasing_by
  · rw [‹s.rest = c :: rest›]
    exact Nat.lt_succ_self _
  · rw [‹s.rest = c :: rest›, after, List.length_drop, List.length_cons]
    omega
  · have hlength : (rest.drop n).length < s.rest.length := by
      rw [‹s.rest = c :: rest›, List.length_drop, List.length_cons]
      omega
    split <;> exact hlength

/-- Closes the blocks that begin further right than the column below `level`. -/
def closeTo (level : Nat) (s : Scan) : Scan :=
  if s.inFlow then s
  else
    let closed := s.level :: s.outer |>.takeWhile (· > level)
    match (s.level :: s.outer).drop closed.length with
    | [] => { s with tokens := s.tokens ++ closed.map fun _ => .blockEnd, level := 0, outer := [] }
    | l :: ls =>
      { s with tokens := s.tokens ++ closed.map fun _ => .blockEnd, level := l, outer := ls }

/-- Opens a block at a column unless one is open there; its token goes in front of those from
`before` on. -/
def openAt (column before : Nat) (t : Token) (s : Scan) : Scan :=
  if s.inFlow || column < s.level then s
  else { s with
    tokens := s.tokens.take before ++ t :: s.tokens.drop before
    level := column + 1
    outer := s.level :: s.outer }

def isStale (s : Scan) (k : KeyStart) : Bool :=
  k.mark.line < s.mark.line || k.mark.index + 1024 < s.mark.index

/-- Forgets keys that can no longer be one. It fails if one had to be. -/
def dropStale? (s : Scan) : Option Scan := do
  let keys ← s.keys.mapM fun key => match key with
    | some k => if s.isStale k then (if k.required then none else some none) else some (some k)
    | none => some none
  return { s with keys }

/-- Gives up the key that may have begun in the innermost bracket. -/
def dropKey? (s : Scan) : Option Scan :=
  match s.keys with
  | some k :: keys => if k.required then none else some { s with keys := none :: keys }
  | _ => some s

/-- Notes that a key may begin here. -/
def saveKey? (s : Scan) : Option Scan :=
  if !s.keyAllowed then some s
  else do
    let key : KeyStart := ⟨s.tokens.length, s.mark, !s.inFlow && s.level = s.mark.column + 1⟩
    let s ← s.dropKey?
    return { s with keys := some key :: s.keys.tail }

def isNameChar (c : Char) : Bool := c.isAlphanum || c = '_' || c = '-'

/-- The name of an anchor or alias. -/
def name? (s : Scan) (make : String → Token) : Option Scan := do
  let s := (← s.saveKey?).allowKey false |>.skip 1
  let name := s.rest.takeWhile isNameChar
  let s := s.skip name.length
  if name.isEmpty then none
  else if atGap s.rest || s.rest.head?.any ("?:,]\x7d%@\x60".toList.contains ·) then
    return s.emit (make (String.ofList name))
  else none

def isUriChar (verbatim : Bool) (c : Char) : Bool :=
  isNameChar c || ";/?:@&=+$.!~*'()".toList.contains c || verbatim && ",[]".toList.contains c

/-- The part of a tag that names it; a percent sign and two digits stand for a byte. -/
def uri? (verbatim : Bool) (text : List Char) : Option (List Char × List Char) :=
  match text with
  | '%' :: a :: b :: rest =>
    match Toml.codePoint? [a, b] with
    | some c => (uri? verbatim rest).map fun (more, after) => (c :: more, after)
    | none => none
  | ['%'] | ['%', _] => none
  | c :: rest =>
    if isUriChar verbatim c then (uri? verbatim rest).map fun (more, after) => (c :: more, after)
    else some ([], text)
  | [] => some ([], [])

/-- A tag, which has to stand alone. -/
def tag? (s : Scan) : Option Scan := do
  let s := (← s.saveKey?).allowKey false
  let ends := fun (handle suffix rest : List Char) =>
    if atGap rest || s.inFlow && rest.head? = some ',' then
      some ((s.skip (s.rest.length - rest.length)).emit
        (.tag (String.ofList handle) (String.ofList suffix)))
    else none
  match s.rest.tail with
  | '<' :: text => do
    let (name, rest) ← uri? true text
    match name, rest with
    | _ :: _, '>' :: rest => ends [] name rest
    | _, _ => none
  | text =>
    match text.dropWhile isNameChar with
    | '!' :: after => do
      let (suffix, rest) ← uri? false after
      if suffix.isEmpty then none
      else ends ('!' :: text.takeWhile isNameChar ++ ['!']) suffix rest
    | _ => do
      let (suffix, rest) ← uri? false text
      if suffix.isEmpty then ends [] ['!'] rest else ends ['!'] suffix rest

/-- A line that begins with a percent sign. -/
def directive? (s : Scan) : Option Scan := do
  let s := (← (s.closeTo 0).dropKey?).allowKey false
  let text := s.rest.tail
  let name := String.ofList (text.takeWhile isNameChar)
  let rest := text.dropWhile isNameChar
  if !atGap rest then none
  let rest := rest.dropWhile isBlank
  let (token, rest) ← match name with
    | "YAML" =>
      let (major, after) := (rest.takeWhile Char.isDigit, rest.dropWhile Char.isDigit)
      match after with
      | '.' :: after =>
        let minor := after.takeWhile Char.isDigit
        if major.isEmpty || minor.isEmpty || minor.length > 9 ||
            major.dropWhile (· = '0') ≠ ['1'] || major.length > 9 ||
            !(["1", "2"].contains (String.ofList (minor.dropWhile (· = '0')))) then none
        else some (Token.version, after.dropWhile Char.isDigit)
      | _ => none
    | "TAG" =>
      match rest with
      | '!' :: after =>
        let word := after.takeWhile isNameChar
        let (handle, after) ← match after.dropWhile isNameChar with
          | '!' :: after => some ('!' :: word ++ ['!'], after)
          | after => if word.isEmpty then some (['!'], after) else none
        if after.head?.any isBlank then do
          let (name, rest) ← uri? true (after.dropWhile isBlank)
          if name.isEmpty || !atGap rest then none
          else some (Token.tagDirective (String.ofList handle) (String.ofList name), rest)
        else none
      | _ => none
    | _ => none
  let (_, rest) ← restOfLine? s.mark rest
  return (s.skip (s.rest.length - rest.length)).emit token

/-- A document mark. -/
def documentMark? (s : Scan) (t : Token) : Option Scan := do
  let s ← (s.closeTo 0).dropKey?
  return ((s.allowKey false).skip 3).emit t

def openBracket? (s : Scan) (t : Token) : Option Scan := do
  let s ← s.saveKey?
  return ({ s with keys := none :: s.keys }.allowKey true |>.skip 1).emit t

def closeBracket? (s : Scan) (t : Token) : Option Scan := do
  let s ← s.dropKey?
  return ({ s with keys := if s.inFlow then s.keys.tail else s.keys }.allowKey false
    |>.skip 1).emit t

def flowEntry? (s : Scan) : Option Scan := do
  let s ← s.dropKey?
  return ((s.allowKey true).skip 1).emit .flowEntry

def blockEntry? (s : Scan) : Option Scan := do
  if !s.inFlow && !s.keyAllowed then none
  let s ← (s.openAt s.mark.column s.tokens.length .blockSequence).dropKey?
  return ((s.allowKey true).skip 1).emit .blockEntry

/-- A key that is marked as one. -/
def key? (s : Scan) : Option Scan := do
  if !s.inFlow && !s.keyAllowed then none
  let s ← (s.openAt s.mark.column s.tokens.length .blockMapping).dropKey?
  return ((s.allowKey !s.inFlow).skip 1).emit .key

/-- A colon: what may have been a key is one. -/
def value? (s : Scan) : Option Scan :=
  match s.keys with
  | some k :: keys =>
    let tokens := s.tokens.take k.token ++ .key :: s.tokens.drop k.token
    let s := { s with tokens, keys := none :: keys }.openAt k.mark.column k.token .blockMapping
    some (((s.allowKey false).skip 1).emit .value)
  | _ =>
    if !s.inFlow && !s.keyAllowed then none
    else
      let s := s.openAt s.mark.column s.tokens.length .blockMapping
      some (((s.allowKey !s.inFlow).skip 1).emit .value)

def quoted? (s : Scan) (single : Bool) : Option Scan := do
  let s := (← s.saveKey?).allowKey false
  let (text, m, rest) ← Yaml.quoted? single (s.mark.advance 1) .none [] s.rest.tail
  return (s.after m rest).emit (.scalar (String.ofList text) false)

def block? (s : Scan) (folded : Bool) : Option Scan := do
  let s := (← s.dropKey?).allowKey true
  let (text, m, rest) ← Yaml.block? folded s.level (s.mark.advance 1) s.rest.tail
  return (s.after m rest).emit (.scalar (String.ofList text) false)

def plain? (s : Scan) : Option Scan := do
  let s := (← s.saveKey?).allowKey false
  let (fold, text, m, rest) ← Yaml.plain? s.inFlow s.level s.mark .none [] s.rest
  return ((s.after m rest).allowKey fold.crossedLine).emit (.scalar (String.ofList text) true)

/-- Whether an unquoted text may begin with `c` where `rest` follows. -/
def beginsPlain (flow : Bool) (c : Char) (rest : List Char) : Bool :=
  if c = '-' then !rest.head?.any isBlank
  else if c = '?' || c = ':' then !flow && !atGap rest
  else !atGap [c] && !",[]\x7b\x7d#&*!|>'\"%@\x60".toList.contains c

/-- The next token, which begins with `c`. -/
def token? (s : Scan) (c : Char) (rest : List Char) : Option Scan :=
  let gap := atGap rest
  if s.mark.column = 0 && c = '%' then s.directive?
  else if atDocumentMark s.mark s.rest then
    s.documentMark? (if c = '-' then .documentStart else .documentEnd)
  else match c with
    | '[' => s.openBracket? .flowSequence
    | '{' => s.openBracket? .flowMapping
    | ']' => s.closeBracket? .flowSequenceEnd
    | '}' => s.closeBracket? .flowMappingEnd
    | ',' => s.flowEntry?
    | '*' => s.name? .alias
    | '&' => s.name? .anchor
    | '!' => s.tag?
    | '\'' => s.quoted? true
    | '"' => s.quoted? false
    | _ =>
      if c = '-' && gap then s.blockEntry?
      else if c = '?' && (s.inFlow || gap) then s.key?
      else if c = ':' && (s.inFlow || gap) then s.value?
      else if c = '|' && !s.inFlow then s.block? false
      else if c = '>' && !s.inFlow then s.block? true
      else if beginsPlain s.inFlow c rest then s.plain?
      else none

/-- All tokens up to the end of the text. -/
def finish? (s : Scan) : Option (List Token) := do
  let next := s.toToken
  let next ← next.dropStale?
  match next.rest with
  | [] =>
    let s ← (next.closeTo 0).dropKey?
    return s.tokens
  | c :: rest => do
    let next ← (next.closeTo (next.mark.column + 1)).token? c rest
    if next.rest.length < s.rest.length then finish? next else none
termination_by s.rest.length

end Scan

/-- Whether a document may contain the character. -/
def isAllowed (c : Char) : Bool :=
  let n := c.toNat
  n = 0x9 || n = 0xA || n = 0xD || 0x20 ≤ n && n ≤ 0x7E || n = 0x85 || 0xA0 ≤ n && n ≤ 0xFFFD ||
    0x10000 ≤ n

def Token.ofChars? (text : List Char) : Option (List Token) :=
  if text.all isAllowed then
    (Scan.start (if text.head? = some '\uFEFF' then text.tail else text)).finish?
  else none

end MigrationAudit.Yaml
