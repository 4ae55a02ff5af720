namespace MigrationAudit

/-- Part of a character set. -/
inductive CharItem where
  | range (low high : Char)
  | blank
  deriving DecidableEq, Repr

/-- The characters of the items, or all others. -/
structure CharSet where
  items : List CharItem
  negated : Bool
  deriving DecidableEq, Repr

/-- What a text is searched for. An alternative that stands first is preferred. A loop, of one round
or more (`loop`) or of any number (`star`), prefers another round if it is greedy, to stop if it is
not. A fork that has a number is passed at most once at one place of the text. -/
inductive Pattern where
  | empty
  | one (set : CharSet)
  | textStart
  | textEnd
  | seq (first second : Pattern)
  | alt (first second : Pattern)
  | group (index : Nat) (body : Pattern)
  | loop (fork : Option Nat) (greedy : Bool) (body : Pattern)
  | star (fork : Option Nat) (greedy : Bool) (body : Pattern)
  | once (fork : Nat) (body : Pattern)
  deriving DecidableEq, Repr

namespace Pattern

def char (c : Char) : Pattern := one ⟨[.range c c], false⟩

/-- Any character but a line feed. -/
def anyChar : Pattern := one ⟨[.range '\n' '\n'], true⟩

def blank : Pattern := one ⟨[.blank], false⟩

def ofList : List Pattern → Pattern
  | [] => empty
  | [p] => p
  | p :: ps => seq p (ofList ps)

def anyOf : List Pattern → Pattern
  | [] => empty
  | [p] => p
  | p :: ps => alt p (anyOf ps)

def optional (greedy : Bool) (p : Pattern) : Pattern :=
  if greedy then alt p empty else alt empty p

/-- Up to `n` copies, each of which needs the one before it. -/
def atMost (greedy : Bool) (p : Pattern) : Nat → Pattern
  | 0 => empty
  | 1 => optional greedy p
  | n + 1 => optional greedy (seq p (atMost greedy p n))

/-- `n` copies of `p`, then `rest`. -/
def copies (p : Pattern) : Nat → Pattern → Pattern
  | 0, rest => rest
  | n + 1, rest => seq p (copies p n rest)

/-- It can match without taking a character, as far as its form tells. -/
def canBeEmpty : Pattern → Bool
  | one _ => false
  | empty | textStart | textEnd | star .. => true
  | seq p q => p.canBeEmpty && q.canBeEmpty
  | alt p q => p.canBeEmpty || q.canBeEmpty
  | group _ p | loop _ _ p | once _ p => p.canBeEmpty

/-- Any number of copies. Where a copy can be empty, the choice between none and some is a fork of
its own. -/
def anyNumber (greedy : Bool) (p : Pattern) : Pattern :=
  if p.canBeEmpty then optional greedy (loop none greedy p) else star none greedy p

/-- At least `low` copies, at most `high` if there is such a limit. -/
def repeated (greedy : Bool) (p : Pattern) (low : Nat) : Option Nat → Pattern
  | some high => copies p low (atMost greedy p (high - low))
  | none =>
    if low = 0 then anyNumber greedy p
    else copies p (low - 1) (loop none greedy p)

/-- The highest number of a group in it. -/
def groupCount : Pattern → Nat
  | empty | one _ | textStart | textEnd => 0
  | seq p q | alt p q => max p.groupCount q.groupCount
  | group i p => max i p.groupCount
  | loop _ _ p | star _ _ p | once _ p => p.groupCount

/-- Some loop has rounds that can be empty, so that a fork in it can be met again at one place. -/
def hasEmptyRounds : Pattern → Bool
  | empty | one _ | textStart | textEnd => false
  | seq p q | alt p q => p.hasEmptyRounds || q.hasEmptyRounds
  | group _ p | once _ p => p.hasEmptyRounds
  | loop _ _ p | star _ _ p => p.canBeEmpty || p.hasEmptyRounds

/-- How many forks there are to number. -/
def forkCount : Pattern → Nat
  | empty | one _ | textStart | textEnd => 0
  | seq p q => p.forkCount + q.forkCount
  | alt p q => p.forkCount + q.forkCount + 1
  | group _ p | once _ p => p.forkCount
  | loop _ _ p | star _ _ p => p.forkCount + 1

/-- Its forks are numbered from `n` on. -/
def numbered : Pattern → (n : Nat) → Pattern
  | empty, _ => empty
  | one set, _ => one set
  | textStart, _ => textStart
  | textEnd, _ => textEnd
  | seq p q, n => seq (p.numbered n) (q.numbered (n + p.forkCount))
  | alt p q, n => once n (alt (p.numbered (n + 1)) (q.numbered (n + 1 + p.forkCount)))
  | group i p, n => group i (p.numbered n)
  | loop _ greedy p, n => loop (some n) greedy (p.numbered (n + 1))
  | star _ greedy p, n => star (some n) greedy (p.numbered (n + 1))
  | once _ p, n => p.numbered n

/-- Its forks have numbers if one of them can be met again at one place. -/
def fenced (p : Pattern) : Pattern := if p.hasEmptyRounds then p.numbered 0 else p

end Pattern

end MigrationAudit
