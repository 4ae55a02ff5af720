import MigrationAudit.Pattern.Token
import MigrationAudit.Pattern.Match

namespace MigrationAudit

/-- A bracket that is still open: the finished alternatives and the items of the last one, newest
first. -/
structure OpenBracket where
  group : Option Nat
  branches : List (List Pattern)
  items : List Pattern
  deriving Repr

namespace OpenBracket

def push (b : OpenBracket) (p : Pattern) : OpenBracket := { b with items := p :: b.items }

def pattern (b : OpenBracket) : Pattern :=
  let body := Pattern.anyOf ((b.items :: b.branches).reverse.map fun items =>
    Pattern.ofList items.reverse)
  match b.group with
  | some i => .group i body
  | none => body

end OpenBracket

namespace Pattern

/-- Reads tokens inside the bracket `top`, which stands inside those of `below`; `groups` have been
opened so far. -/
def ofTokens? : List PatternToken → (top : OpenBracket) → (below : List OpenBracket) →
    (groups : Nat) → Option Pattern
  | [], top, [], _ => some top.pattern
  | [], _, _ :: _, _ => none
  | .one set :: rest, top, below, n => ofTokens? rest (top.push (.one set)) below n
  | .textStart :: rest, top, below, n => ofTokens? rest (top.push .textStart) below n
  | .textEnd :: rest, top, below, n => ofTokens? rest (top.push .textEnd) below n
  | .bar :: rest, top, below, n =>
    ofTokens? rest { top with branches := top.items :: top.branches, items := [] } below n
  | .opening true :: rest, top, below, n =>
    ofTokens? rest ⟨some (n + 1), [], []⟩ (top :: below) (n + 1)
  | .opening false :: rest, top, below, n => ofTokens? rest ⟨none, [], []⟩ (top :: below) n
  | .closing :: rest, top, outer :: below, n => ofTokens? rest (outer.push top.pattern) below n
  | .closing :: _, _, [], _ => none
  | .times low high greedy :: rest, top, below, n =>
    match top.items with
    | [] => none
    | p :: items =>
      ofTokens? rest { top with items := repeated greedy p low high :: items } below n

/-- The pattern that a text denotes, if the text is well formed. -/
def parse? (s : String) : Option Pattern := do
  return (← ofTokens? (← PatternToken.ofChars? s.toList) ⟨none, [], []⟩ [] 0).fenced

end Pattern

/-- A pattern together with the text it was written as. -/
structure Regex where
  source : String
  pattern : Pattern
  parse?_source : Pattern.parse? source = some pattern

namespace Regex

def ofString (s : String) (h : (Pattern.parse? s).isSome) : Regex :=
  ⟨s, (Pattern.parse? s).get h, (Option.some_get h).symm⟩

def ofString? (s : String) : Option Regex :=
  if h : (Pattern.parse? s).isSome then some (ofString s h) else none

/-- All matches in a text, from left to right. -/
def findAll (r : Regex) (text : String) : List Match := r.pattern.findAll text.toList

end Regex

end MigrationAudit
