import MigrationAudit.Pattern.Basic
import MigrationAudit.Text.Search
import MigrationAudit.Text.Decimal

namespace MigrationAudit

/-- A character of a written pattern: one that may be an operator, one that stands for itself, or
the class of blanks. -/
inductive PatternSymbol where
  | mark (c : Char)
  | literal (c : Char)
  | blank
  deriving DecidableEq, Repr

inductive PatternToken where
  | one (set : CharSet)
  | textStart
  | textEnd
  | bar
  | opening (captures : Bool)
  | closing
  | times (low : Nat) (high : Option Nat) (greedy : Bool)
  deriving DecidableEq, Repr

namespace PatternSymbol

def char? : PatternSymbol → Option Char
  | mark c | literal c => some c
  | blank => none

def item : PatternSymbol → CharItem
  | mark c | literal c => .range c c
  | blank => .blank

/-- Letters, digits and angle brackets do not stand for themselves behind a backslash. -/
def ofEscape? : Char → Option PatternSymbol
  | 's' => some blank
  | 'n' => some (literal '\n')
  | 'r' => some (literal '\r')
  | 't' => some (literal '\t')
  | '<' | '>' => none
  | c => if c.isAlphanum || c.toNat > 127 then none else some (literal c)

/-- Resolves the escapes. -/
def ofChars? : List Char → Option (List PatternSymbol)
  | [] => some []
  | ['\\'] => none
  | '\\' :: c :: rest => do return (← ofEscape? c) :: (← ofChars? rest)
  | c :: rest => do return mark c :: (← ofChars? rest)

end PatternSymbol

namespace PatternToken
open PatternSymbol

/-- The items of a character class up to its closing bracket, and what follows it. Classes inside
classes and the operators between them are not read. -/
def classItems? : List PatternSymbol → Option (List CharItem × List PatternSymbol)
  | [] => none
  | mark ']' :: rest => some ([], rest)
  | mark '[' :: _ => none
  | mark '&' :: mark '&' :: _ => none
  | mark '-' :: mark '-' :: _ => none
  | mark '~' :: mark '~' :: _ => none
  | low :: mark '-' :: high :: rest =>
    if high = mark ']' ∨ high = mark '-' then do
      let (items, after) ← classItems? (mark '-' :: high :: rest)
      return (low.item :: items, after)
    else do
      let a ← low.char?
      let b ← high.char?
      let (items, after) ← classItems? rest
      if a ≤ b then return (.range a b :: items, after) else none
  | s :: rest => do
    let (items, after) ← classItems? rest
    return (s.item :: items, after)

/-- What stands for itself at the start of a class: a closing bracket, or hyphens. -/
def classStart : List PatternSymbol → List CharItem × List PatternSymbol
  | mark ']' :: rest => ([.range ']' ']'], rest)
  | s => ((s.takeWhile (· = mark '-')).map item, s.dropWhile (· = mark '-'))

def class? (s : List PatternSymbol) : Option (List CharItem × List PatternSymbol) := do
  let (first, rest) := classStart s
  let (items, after) ← classItems? rest
  return (first ++ items, after)

/-- How often, as written between braces. -/
def bounds? (body : List Char) : Option (Nat × Option Nat) :=
  match Text.split ',' body with
  | [low] => do
    let n ← Text.natural? low
    return (n, some n)
  | [low, []] => do return (← Text.natural? low, none)
  | [low, high] => do
    let m ← Text.natural? low
    let n ← Text.natural? high
    if m ≤ n then return (m, some n) else none
  | _ => none

/-- A question mark after a repetition makes it prefer fewer rounds. -/
def withGreed (low : Nat) (high : Option Nat) :
    List PatternSymbol → PatternToken × List PatternSymbol
  | mark '?' :: rest => (.times low high false, rest)
  | rest => (.times low high true, rest)

/-- The first token and what follows it. -/
def next? (s : PatternSymbol) (rest : List PatternSymbol) :
    Option (PatternToken × List PatternSymbol) :=
  match s with
  | .blank => some (.one ⟨[.blank], false⟩, rest)
  | .literal c => some (.one ⟨[.range c c], false⟩, rest)
  | .mark '.' => some (.one ⟨[.range '\n' '\n'], true⟩, rest)
  | .mark '^' => some (.textStart, rest)
  | .mark '$' => some (.textEnd, rest)
  | .mark '|' => some (.bar, rest)
  | .mark ')' => some (.closing, rest)
  | .mark '*' => some (withGreed 0 none rest)
  | .mark '+' => some (withGreed 1 none rest)
  | .mark '?' => some (withGreed 0 (some 1) rest)
  | .mark '(' =>
    match rest with
    | mark '?' :: mark ':' :: rest => some (.opening false, rest)
    | mark '?' :: _ => none
    | _ => some (.opening true, rest)
  | .mark '[' =>
    let (negated, body) := match rest with
      | mark '^' :: body => (true, body)
      | _ => (false, rest)
    match class? body with
    | some (items, after) => some (.one ⟨items, negated⟩, after)
    | none => none
  | .mark '{' =>
    match rest.dropWhile (· ≠ mark '}') with
    | [] => none
    | _ :: after => do
      let body ← (rest.takeWhile (· ≠ mark '}')).mapM char?
      let (low, high) ← bounds? body
      return withGreed low high after
  | .mark c => some (.one ⟨[.range c c], false⟩, rest)

def ofSymbols? : List PatternSymbol → Option (List PatternToken)
  | [] => some []
  | s :: rest =>
    match next? s rest with
    | none => none
    | some (token, after) =>
      if after.length ≤ rest.length then (ofSymbols? after).map (token :: ·) else none
termination_by s => s.length

/-- The tokens of a written pattern. -/
def ofChars? (cs : List Char) : Option (List PatternToken) :=
  PatternSymbol.ofChars? cs >>= ofSymbols?

end PatternToken

end MigrationAudit
