import MigrationAudit.Pattern.Basic
import MigrationAudit.Text.Blank

namespace MigrationAudit

def CharItem.holds (c : Char) : CharItem → Bool
  | range low high => low ≤ c && c ≤ high
  | blank => Text.isBlank c

def CharSet.holds (s : CharSet) (c : Char) : Bool := s.items.any (CharItem.holds c) != s.negated

/-- A part of a text, counted in characters. -/
structure Span where
  start : Nat
  stop : Nat
  deriving DecidableEq, Repr

namespace Span

def slice (text : List Char) (s : Span) : List Char := (text.drop s.start).take (s.stop - s.start)

def text (whole : List Char) (s : Span) : String := String.ofList (s.slice whole)

/-- The bytes that the first `n` characters take in UTF-8. -/
def byteOffset (text : List Char) (n : Nat) : Nat := (String.ofList (text.take n)).utf8ByteSize

/-- The same part, counted in bytes. -/
def inBytes (text : List Char) (s : Span) : Span :=
  ⟨byteOffset text s.start, byteOffset text s.stop⟩

end Span

/-- Where a pattern was found; a group that took no part has no span. -/
structure Match where
  whole : Span
  groups : List (Option Span)
  deriving DecidableEq, Repr

namespace Match

def group? (m : Match) : Nat → Option Span
  | 0 => some m.whole
  | n + 1 => (m.groups[n]?).join

def spans (m : Match) : List (Option Span) := some m.whole :: m.groups

end Match

/-- How far a match has come: the characters behind it, those ahead, the groups so far, and the
numbers of the forks that it has passed since it last took a character. -/
structure Progress where
  position : Nat
  rest : List Char
  groups : List (Option Span)
  passed : List Nat
  deriving DecidableEq, Repr

/-- Goes through a fork, but for one that has been passed at this place. -/
def Progress.pass? (s : Progress) : Option Nat → Option Progress
  | none => some s
  | some fork => if fork ∈ s.passed then none else some { s with passed := fork :: s.passed }

namespace Pattern

/-- Another round or none, the preferred one first. -/
def prefer (greedy : Bool) (again stop : Unit → Option Progress) : Option Progress :=
  if greedy then again () <|> stop () else stop () <|> again ()

/-- A loop at its fork. A round that takes nothing would come to the same fork again. -/
def runMore (fork : Option Nat) (greedy : Bool)
    (body : (Progress → Option Progress) → Progress → Option Progress)
    (next : Progress → Option Progress) (s : Progress) : Option Progress :=
  (s.pass? fork).bind fun here =>
    prefer greedy
      (fun _ => body (fun t =>
        if t.rest.length < s.rest.length then runMore fork greedy body next t else none) here)
      (fun _ => next here)
termination_by s.rest.length

/-- Tries the ways to match the pattern from `s` on, in order of preference, until `next` accepts
one. -/
def run : Pattern → (Progress → Option Progress) → Progress → Option Progress
  | empty, next, s => next s
  | one set, next, s =>
    match s.rest with
    | [] => none
    | c :: rest => if set.holds c then next ⟨s.position + 1, rest, s.groups, []⟩ else none
  | textStart, next, s => if s.position = 0 then next s else none
  | textEnd, next, s => if s.rest.isEmpty then next s else none
  | seq p q, next, s => p.run (q.run next) s
  | alt p q, next, s => p.run next s <|> q.run next s
  | group i p, next, s =>
    p.run (fun t =>
      next { t with groups := t.groups.set (i - 1) (some ⟨s.position, t.position⟩) }) s
  | loop fork greedy p, next, s => p.run (runMore fork greedy p.run next) s
  | star fork greedy p, next, s => runMore fork greedy p.run next s
  | once fork p, next, s => (s.pass? fork).bind (p.run next)

/-- The preferred way to match at `position`, where `rest` lies ahead. -/
def runAt (p : Pattern) (position : Nat) (rest : List Char) : Option Progress :=
  p.run some ⟨position, rest, List.replicate p.groupCount none, []⟩

/-- The first match from `position` on, and the characters after it. -/
def search (p : Pattern) (position : Nat) (rest : List Char) : Option (Match × List Char) :=
  match p.runAt position rest with
  | some s => some (⟨⟨position, s.position⟩, s.groups⟩, s.rest)
  | none =>
    match rest with
    | [] => none
    | _ :: rest => p.search (position + 1) rest

/-- The matches from `position` on. An empty one does not count where a match has just ended. -/
def scan (p : Pattern) (position : Nat) (rest : List Char) (justEnded : Bool) : List Match :=
  match p.search position rest with
  | none => []
  | some (m, ahead) =>
    if ahead.length < rest.length then m :: p.scan m.whole.stop ahead true
    else if justEnded then
      match rest with
      | [] => []
      | _ :: rest => p.scan (position + 1) rest false
    else m :: p.scan position rest true
termination_by 2 * rest.length + (if justEnded then 0 else 1)
decreasing_by all_goals grind

/-- All matches in a text, from left to right, none overlapping another. -/
def findAll (p : Pattern) (text : List Char) : List Match := p.scan 0 text false

end Pattern

end MigrationAudit
