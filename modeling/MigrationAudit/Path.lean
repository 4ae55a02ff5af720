import MigrationAudit.Text.Search

namespace MigrationAudit

/-- A file path as it was spelled. -/
structure Path where
  text : String
  deriving DecidableEq, Repr

/-- A step of a path. -/
inductive PathStep where
  | root
  | current
  | parent
  | name (name : String)
  deriving DecidableEq, Repr

namespace PathStep

def text : PathStep → String
  | root => "/"
  | current => "."
  | parent => ".."
  | name s => s

def ofSegment? (s : String) : Option PathStep :=
  if s = "" ∨ s = "." then none else if s = ".." then some parent else some (name s)

/-- The steps from one directory to another once their common start is gone, by comparing names
only. It fails where the way back leads through a parent directory of unknown name. -/
def detour? : (target base : List PathStep) → Option (List PathStep)
  | target, [] => some target
  | [], base => some (base.map fun _ => parent)
  | a :: target, current :: base => (detour? target base).map (a :: ·)
  | _ :: _, parent :: _ => none
  | a :: target, base => some (base.map (fun _ => parent) ++ a :: target)

/-- The steps that lead from `base` to `target`. -/
def between? : (target base : List PathStep) → Option (List PathStep)
  | a :: target, b :: base => if a = b then between? target base
    else detour? (a :: target) (b :: base)
  | target, base => detour? target base

end PathStep

namespace Path

def isAbsolute (p : Path) : Bool := p.text.toList.head? = some '/'

/-- The texts between the slashes. -/
def segments (p : Path) : List String := (Text.split '/' p.text.toList).map String.ofList

/-- What a path begins with besides names: the root, the current directory, or nothing. -/
def start? (p : Path) : Option PathStep :=
  if p.isAbsolute then some .root
  else if p.segments.head? = some "." then some .current
  else none

/-- The segments after the start. -/
def body (p : Path) : List String :=
  match p.start? with
  | some _ => p.segments.tail
  | none => p.segments

/-- The steps of a path; doubled slashes, and dots after the start, are none. -/
def steps (p : Path) : List PathStep := p.start?.toList ++ p.body.filterMap PathStep.ofSegment?

def join (base p : Path) : Path :=
  if p.isAbsolute || base.text = "" then p
  else if Text.endsWith base.text "/" then ⟨base.text ++ p.text⟩
  else ⟨base.text ++ "/" ++ p.text⟩

/-- The last name, if the path ends with one. -/
def fileName? (p : Path) : Option String :=
  match p.steps.getLast? with
  | some (.name s) => some s
  | _ => none

/-- The path with the same start and another, non-empty body. -/
def withBody (p : Path) (segments : List String) : Path :=
  let rest := String.intercalate "/" segments
  match p.start? with
  | some .root => ⟨"/" ++ rest⟩
  | some step => ⟨step.text ++ "/" ++ rest⟩
  | none => ⟨rest⟩

/-- The directories above, nearest first, as far as the spelling shows them. -/
def ancestors (p : Path) : List Path :=
  let bodies := (Text.suffixes p.body.reverse).filter fun reversed =>
    (reversed.head?.bind PathStep.ofSegment?).isSome
  match bodies with
  | [] => []
  | _ :: above =>
    above.map (fun reversed => p.withBody reversed.reverse) ++
      (p.start?.map fun step => ⟨step.text⟩).toList

/-- The path seen from `root`, with slashes between the steps; the path as it is if no way is
known. -/
def relativeTo (root p : Path) : String :=
  let steps := if root.isAbsolute = p.isAbsolute then PathStep.between? p.steps root.steps else none
  String.intercalate "/" (((steps.getD p.steps).filter (· ≠ .current)).map PathStep.text)

end Path

end MigrationAudit
