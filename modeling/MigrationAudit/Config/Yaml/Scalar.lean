import MigrationAudit.Config.Toml

/-! The texts of YAML scalars. Each reader starts at a mark and answers with the text, the mark
after it and what follows; lines inside a text are folded. -/

namespace MigrationAudit.Yaml

/-- A place in a document. -/
structure Mark where
  index : Nat
  line : Nat
  column : Nat
  deriving DecidableEq, Repr

namespace Mark

def advance (m : Mark) (n : Nat) : Mark := { m with index := m.index + n, column := m.column + n }

/-- The start of the next line, after a line end of `n` characters. -/
def nextLine (m : Mark) (n : Nat) : Mark := ⟨m.index + n, m.line + 1, 0⟩

end Mark

def isBlank (c : Char) : Bool := c = ' ' || c = '\t'

def isBreak (c : Char) : Bool :=
  c = '\n' || c = '\r' || c = '\u0085' || c = '\u2028' || c = '\u2029'

/-- Whether the text ends here or goes on with a blank or a line end. -/
def atGap : List Char → Bool
  | [] => true
  | c :: _ => isBlank c || isBreak c

def atBreak : List Char → Bool
  | [] => true
  | c :: _ => isBreak c

/-- What a line end that begins with `c` is read as, and how many characters of `rest` belong to
it. -/
def lineEnd (c : Char) (rest : List Char) : Char × Nat :=
  if c = '\u2028' || c = '\u2029' then (c, 0)
  else match c, rest with
    | '\r', '\n' :: _ => ('\n', 1)
    | _, _ => ('\n', 0)

/-- Three dashes or three dots that stand alone at the start of a line. -/
def atDocumentMark (m : Mark) (text : List Char) : Bool :=
  m.column = 0 && (match text with
    | '-' :: '-' :: '-' :: rest | '.' :: '.' :: '.' :: rest => atGap rest
    | _ => false)

/-- Blanks and line ends met since the last other character. -/
structure Fold where
  blanks : List Char
  breaks : Option (List Char × List Char)
  deriving Repr

namespace Fold

def none : Fold := ⟨[], .none⟩

/-- The fold after an escaped line end. -/
def escaped : Fold := ⟨[], some ([], [])⟩

def isNone (f : Fold) : Bool := f.blanks.isEmpty && f.breaks.isNone

def crossedLine (f : Fold) : Bool := f.breaks.isSome

/-- Blanks at the start of a line are dropped. -/
def blank (f : Fold) (c : Char) : Fold :=
  if f.crossedLine then f else { f with blanks := f.blanks ++ [c] }

def lineEnd (f : Fold) (c : Char) : Fold :=
  match f.breaks with
  | .none => ⟨[], some ([c], [])⟩
  | some (first, more) => ⟨[], some (first, more ++ [c])⟩

/-- What the fold stands for: one line end is a blank, of several the first is dropped. -/
def text (f : Fold) : List Char :=
  match f.breaks with
  | .none => f.blanks
  | some (first, more) =>
    if first = ['\n'] then (if more.isEmpty then [' '] else more) else first ++ more

end Fold

/-- A text, the mark after it, and what follows. -/
abbrev Found := List Char × Mark × List Char

/-- The character that an escape in double quotes stands for, and how many characters it takes after
the backslash. -/
def escape? : List Char → Option (Char × Nat)
  | '0' :: _ => some ('\x00', 1)
  | 'a' :: _ => some ('\x07', 1)
  | 'b' :: _ => some ('\x08', 1)
  | 't' :: _ | '\t' :: _ => some ('\t', 1)
  | 'n' :: _ => some ('\n', 1)
  | 'v' :: _ => some ('\x0b', 1)
  | 'f' :: _ => some ('\x0c', 1)
  | 'r' :: _ => some ('\r', 1)
  | 'e' :: _ => some ('\x1b', 1)
  | ' ' :: _ => some (' ', 1)
  | '"' :: _ => some ('"', 1)
  | '/' :: _ => some ('/', 1)
  | '\\' :: _ => some ('\\', 1)
  | 'N' :: _ => some ('\u0085', 1)
  | '_' :: _ => some ('\u00a0', 1)
  | 'L' :: _ => some ('\u2028', 1)
  | 'P' :: _ => some ('\u2029', 1)
  | 'x' :: rest => digits 2 rest
  | 'u' :: rest => digits 4 rest
  | 'U' :: rest => digits 8 rest
  | _ => none
where
  digits (n : Nat) (rest : List Char) : Option (Char × Nat) :=
    if rest.length < n then none else (Toml.codePoint? (rest.take n)).map (·, n + 1)

/-- A quoted text after its opening quote; `done` is what was read so far, last character first. -/
def quoted? (single : Bool) (m : Mark) (fold : Fold) (done text : List Char) : Option Found :=
  match text with
  | [] => none
  | c :: rest =>
    if isBlank c then quoted? single (m.advance 1) (fold.blank c) done rest
    else if isBreak c then
      let (c, n) := lineEnd c rest
      quoted? single (m.nextLine (n + 1)) (fold.lineEnd c) done (rest.drop n)
    else if atDocumentMark m text then none
    else
      let done := fold.text.reverse ++ done
      let closed : Option Found := some (done.reverse, m.advance 1, rest)
      if single then
        if c = '\'' then
          if rest.head? = some '\'' then
            quoted? single (m.advance 2) .none ('\'' :: done) (rest.drop 1)
          else closed
        else quoted? single (m.advance 1) .none (c :: done) rest
      else if c = '"' then closed
      else if c = '\\' then
        match rest.head? with
        | none => none
        | some d =>
          if isBreak d then
            let (_, n) := lineEnd d rest.tail
            quoted? single (m.nextLine (n + 2)) .escaped done (rest.drop (n + 1))
          else match escape? rest with
            | some (e, n) => quoted? single (m.advance (n + 1)) .none (e :: done) (rest.drop n)
            | none => none
      else quoted? single (m.advance 1) .none (c :: done) rest
termination_by text.length
decreasing_by
  all_goals simp only [List.length_cons, List.length_drop]
  all_goals omega

def isFlowMark (c : Char) : Bool := c = ',' || c = '[' || c = ']' || c = '{' || c = '}'

/-- An unquoted text and the fold after it. Outside of brackets its lines start at column `indent`
or further right. -/
def plain? (flow : Bool) (indent : Nat) (m : Mark) (fold : Fold) (done text : List Char) :
    Option (Fold × Found) :=
  let ended : Option (Fold × Found) := some (fold, done.reverse, m, text)
  match text with
  | [] => ended
  | c :: rest =>
    if isBlank c then
      if fold.crossedLine && m.column < indent && c = '\t' then none
      else plain? flow indent (m.advance 1) (fold.blank c) done rest
    else if isBreak c then
      let (c, n) := lineEnd c rest
      plain? flow indent (m.nextLine (n + 1)) (fold.lineEnd c) done (rest.drop n)
    else if !fold.isNone && (!flow && m.column < indent || c = '#') then ended
    else if atDocumentMark m text then ended
    else if flow && c = ':' && rest.head?.any (fun d => isFlowMark d || d = '?') then none
    else if c = ':' && atGap rest || flow && isFlowMark c then ended
    else plain? flow indent (m.advance 1) .none (c :: (fold.text.reverse ++ done)) rest
termination_by text.length

/-- Skips the empty lines of a block text and the indentation of the line after them. The answer
holds the line ends and the widest indentation seen; `indent` is zero until it is known. -/
def blockGap? (indent widest : Nat) (m : Mark) (breaks text : List Char) : Option (Nat × Found) :=
  let open_ := indent = 0 || m.column < indent
  match text with
  | [] => some (max widest m.column, breaks.reverse, m, text)
  | c :: rest =>
    if open_ && c = ' ' then blockGap? indent widest (m.advance 1) breaks rest
    else
      let widest := max widest m.column
      if open_ && c = '\t' then none
      else if isBreak c then
        let (c, n) := lineEnd c rest
        blockGap? indent widest (m.nextLine (n + 1)) (c :: breaks) (rest.drop n)
      else some (widest, breaks.reverse, m, text)
termination_by text.length
decreasing_by
  all_goals simp only [List.length_cons, List.length_drop]
  all_goals omega

/-- What becomes of the line ends after a block text. -/
inductive Chomp where
  | strip
  | clip
  | keep
  deriving DecidableEq, Repr

/-- The lines of a block text. `first` is the end of the line before, `more` the line ends after it,
and `blankBefore` tells whether that line began with a blank. -/
def blockLines? (folded : Bool) (chomp : Chomp) (indent : Nat) (blankBefore : Bool)
    (first more done : List Char) (m : Mark) (text : List Char) : Option Found :=
  let ended : Option Found :=
    some (done ++ (if chomp = .strip then [] else first) ++
      (if chomp = .keep then more else []), m, text)
  match text with
  | [] => ended
  | c :: rest =>
    if m.column ≠ indent then ended
    else
      let blankHere := isBlank c
      let joint :=
        if folded && first = ['\n'] && !blankBefore && !blankHere then
          if more.isEmpty then [' '] else more
        else first ++ more
      let line := text.takeWhile (!isBreak ·)
      let m := m.advance line.length
      match text.dropWhile (!isBreak ·) with
      | [] => blockLines? folded chomp indent blankHere [] [] (done ++ joint ++ line) m []
      | d :: after =>
        let (d, n) := lineEnd d after
        match blockGap? indent 0 (m.nextLine (n + 1)) [] (after.drop n) with
        | none => none
        | some (_, more, m, after) =>
          if after.length ≤ rest.length then
            blockLines? folded chomp indent blankHere [d] more (done ++ joint ++ line) m after
          else none
termination_by text.length
decreasing_by
  · exact Nat.succ_pos _
  · exact Nat.lt_succ_of_le ‹_›

/-- How a block text begins: what becomes of its end, and the indentation if it is given. -/
def blockHeader? : List Char → Option (Chomp × Nat × Nat)
  | '+' :: rest => (digit? rest).map fun (d, n) => (.keep, d, n + 1)
  | '-' :: rest => (digit? rest).map fun (d, n) => (.strip, d, n + 1)
  | rest => do
    let (d, n) ← digit? rest
    return match n, rest with
      | 1, _ :: '+' :: _ => (.keep, d, 2)
      | 1, _ :: '-' :: _ => (.strip, d, 2)
      | _, _ => (.clip, d, n)
where
  digit? : List Char → Option (Nat × Nat)
    | c :: _ => if c.isDigit then (if c = '0' then none else some (c.toNat - '0'.toNat, 1))
      else some (0, 0)
    | [] => some (0, 0)

/-- Skips blanks and a comment up to the end of the line. -/
def restOfLine? (m : Mark) (text : List Char) : Option (Mark × List Char) :=
  let m := m.advance (text.takeWhile isBlank).length
  let text := text.dropWhile isBlank
  match text with
  | '#' :: _ => some (m.advance (text.takeWhile (!isBreak ·)).length, text.dropWhile (!isBreak ·))
  | _ => if atBreak text then some (m, text) else none

/-- A block text after its indicator, in a block whose content starts at column `level` or further
right. -/
def block? (folded : Bool) (level : Nat) (m : Mark) (text : List Char) : Option Found := do
  let (chomp, given, n) ← blockHeader? text
  let (m, text) ← restOfLine? (m.advance n) (text.drop n)
  let (m, text) := match text with
    | [] => (m, [])
    | c :: rest => let (_, n) := lineEnd c rest; (m.nextLine (n + 1), rest.drop n)
  let indent := if given = 0 then 0 else (level - 1) + given
  let (widest, more, m, text) ← blockGap? indent 0 m [] text
  let indent := if indent = 0 then max widest (max level 1) else indent
  blockLines? folded chomp indent false [] more [] m text

end MigrationAudit.Yaml
