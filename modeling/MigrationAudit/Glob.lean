import MigrationAudit.Failure
import MigrationAudit.Text.Search

namespace MigrationAudit

/-- What a glob is made of. A class holds ranges of characters. -/
inductive GlobToken where
  | literal (c : Char)
  | anyChar
  | anyRun
  | anyFolders
  | oneOf (negated : Bool) (ranges : List (Char × Char))
  deriving DecidableEq, Repr

namespace GlobToken

/-- The ranges of a class, from its body; a lone character is a range of its own. -/
def ranges : List Char → List (Char × Char)
  | a :: '-' :: b :: rest => (a, b) :: ranges rest
  | c :: rest => (c, c) :: ranges rest
  | [] => []

def inClass (negated : Bool) (ranges : List (Char × Char)) (c : Char) : Bool :=
  (ranges.any fun (low, high) => low ≤ c && c ≤ high) != negated

/-- Reads a glob from the character numbered `position` on; `before` is the character in front of
it. -/
def ofChars (position : Nat) (before : Option Char) : List Char → Except GlobError (List GlobToken)
  | [] => .ok []
  | '?' :: rest => do return anyChar :: (← ofChars (position + 1) (some '?') rest)
  | '*' :: '*' :: '*' :: _ => .error ⟨position + 2, .starRun⟩
  | '*' :: '*' :: rest =>
    if before.any (· ≠ '/') then .error ⟨position - 1, .strayRecursion⟩
    else match rest with
      | [] => .ok [anyFolders]
      | '/' :: rest => do return anyFolders :: (← ofChars (position + 3) (some '/') rest)
      | _ => .error ⟨position + 2, .strayRecursion⟩
  | '*' :: rest => do return anyRun :: (← ofChars (position + 1) (some '*') rest)
  | '[' :: '!' :: c :: rest =>
    match _ : rest.dropWhile (· ≠ ']') with
    | [] => .error ⟨position, .badClass⟩
    | _ :: after => do
      let body := c :: rest.takeWhile (· ≠ ']')
      return oneOf true (ranges body) ::
        (← ofChars (position + body.length + 3) (some ']') after)
  | '[' :: c :: rest =>
    match _ : rest.dropWhile (· ≠ ']') with
    | [] => .error ⟨position, .badClass⟩
    | _ :: after => do
      let body := c :: rest.takeWhile (· ≠ ']')
      return oneOf false (ranges body) ::
        (← ofChars (position + body.length + 2) (some ']') after)
  | ['['] => .error ⟨position, .badClass⟩
  | c :: rest => do return literal c :: (← ofChars (position + 1) (some c) rest)
termination_by text => text.length
decreasing_by
  all_goals
    try have shorter := Text.length_dropWhile_le (· ≠ ']') rest
    simp_all
    try omega

/-- What follows each slash of a text. -/
def afterSlashes : List Char → List (List Char)
  | [] => []
  | c :: rest => if c = '/' then rest :: afterSlashes rest else afterSlashes rest

/-- Whether the tokens cover a text. A run of folders is empty or ends with a slash, unless it ends
the glob: then it is anything. -/
def cover : List GlobToken → List Char → Bool
  | [], text => text.isEmpty
  | [anyFolders], _ => true
  | anyFolders :: tokens, text => (text :: afterSlashes text).any (cover tokens)
  | anyRun :: tokens, text => (Text.suffixes text).any (cover tokens)
  | _ :: _, [] => false
  | literal c :: tokens, d :: rest => c = d && cover tokens rest
  | anyChar :: tokens, _ :: rest => cover tokens rest
  | oneOf negated ranges :: tokens, d :: rest => inClass negated ranges d && cover tokens rest

end GlobToken

structure Glob where
  tokens : List GlobToken
  deriving DecidableEq, Repr

namespace Glob

def parse (s : String) : Except GlobError Glob := return ⟨← GlobToken.ofChars 0 none s.toList⟩

/-- Slashes and leading dots are characters like any other. -/
def covers (g : Glob) (path : String) : Bool := GlobToken.cover g.tokens path.toList

/-- All globs of a list, or what is wrong with the first bad one. -/
def parseAll (sources : List String) : Except Failure (List Glob) :=
  sources.mapM fun s => (parse s).mapError (Failure.badGlob s)

end Glob

end MigrationAudit
