import MigrationAudit.Config.Yaml.Token

/-! A YAML document as far as settings need it: a mapping whose values are scalars or lists of
scalars. Any other well-formed document is refused like a malformed one. -/

namespace MigrationAudit.Yaml

/-- The nodes that were given a name, newest first, and what the tag handles stand for. -/
structure Names where
  anchors : List (String × Setting)
  handles : List (String × String)
  deriving Repr

namespace Names

def standardHandles : List (String × String) := [("!", "!"), ("!!", "tag:yaml.org,2002:")]

def tag? (n : Names) (handle suffix : String) : Option String :=
  if handle = "" then some suffix
  else ((n.handles ++ standardHandles).lookup handle).map (· ++ suffix)

def declare (n : Names) (anchor : Option String) (value : Setting) : Names :=
  match anchor with
  | some name => { n with anchors := (name, value) :: n.anchors }
  | none => n

end Names

/-- The name and the tag that a node is given. -/
structure Properties where
  anchor : Option String
  tag : Option String
  deriving Repr

/-- A node's properties, in either order, and what follows them. -/
def properties? (names : Names) : List Token → Option (Properties × List Token)
  | .anchor name :: .tag handle suffix :: rest
  | .tag handle suffix :: .anchor name :: rest => do
    return (⟨some name, some (← names.tag? handle suffix)⟩, rest)
  | .anchor name :: rest => some (⟨some name, none⟩, rest)
  | .tag handle suffix :: rest => do return (⟨none, some (← names.tag? handle suffix)⟩, rest)
  | rest => some (⟨none, none⟩, rest)

/-- A scalar node; one with properties may be empty. -/
def scalar? (names : Names) (tokens : List Token) : Option (Scalar × Names × List Token) := do
  match tokens with
  | .alias name :: rest =>
    match names.anchors.lookup name with
    | some (.scalar s) => return (s, names, rest)
    | _ => none
  | _ =>
    let (p, rest) ← properties? names tokens
    match rest with
    | .scalar text plain :: rest =>
      let s : Scalar := ⟨text, plain, p.tag⟩
      return (s, names.declare p.anchor (.scalar s), rest)
    | .blockSequence :: _ | .blockMapping :: _ | .flowSequence :: _ | .flowMapping :: _ => none
    | _ =>
      if p.anchor.isNone && p.tag.isNone then none
      else
        let s : Scalar := { Scalar.empty with tag := p.tag }
        return (s, names.declare p.anchor (.scalar s), rest)

/-- Whether an entry of a block ends before this token without a node of its own. -/
def endsEntry : List Token → Bool
  | .blockEntry :: _ | .key :: _ | .value :: _ | .blockEnd :: _ => true
  | _ => false

/-- The items of a list that is written with dashes. A list at the indentation of its key has no end
of its own. -/
def dashed? (indented : Bool) (names : Names) (tokens : List Token) :
    Option (List String × Names × List Token) :=
  match tokens with
  | .blockEntry :: rest =>
    let item : Option (Scalar × Names × List Token) :=
      if endsEntry rest then some (.empty, names, rest) else scalar? names rest
    match item with
    | none => none
    | some (s, names, after) =>
      if after.length ≤ rest.length then
        (dashed? indented names after).map fun (items, names, after) =>
          (s.text :: items, names, after)
      else none
  | .blockEnd :: rest => some ([], names, if indented then rest else tokens)
  | _ => if indented then none else some ([], names, tokens)
termination_by tokens.length

/-- The items of a list in brackets; a comma may follow the last one. -/
def bracketed? (names : Names) (tokens : List Token) : Option (List String × Names × List Token) :=
  match tokens with
  | .flowSequenceEnd :: rest => some ([], names, rest)
  | start =>
    match scalar? names start with
    | some (s, names, .flowEntry :: after) =>
      if after.length < start.length then
        (bracketed? names after).map fun (items, names, after) => (s.text :: items, names, after)
      else none
    | some (s, names, .flowSequenceEnd :: after) => some ([s.text], names, after)
    | _ => none
termination_by tokens.length

/-- The value of a setting. -/
def setting? (names : Names) (tokens : List Token) : Option (Setting × Names × List Token) := do
  match tokens with
  | .alias name :: rest => return (← names.anchors.lookup name, names, rest)
  | _ =>
    let (p, rest) ← properties? names tokens
    let list := fun (found : Option (List String × Names × List Token)) => do
      let (items, names, rest) ← found
      return (Setting.list items, names.declare p.anchor (.list items), rest)
    match rest with
    | .blockEntry :: _ => list (dashed? false names rest)
    | .blockSequence :: rest => list (dashed? true names rest)
    | .flowSequence :: rest => list (bracketed? names rest)
    | _ => do
      let (s, names, rest) ← scalar? names tokens
      return (.scalar s, names, rest)

/-- The settings of a block, one below the other. -/
def blockFields? (names : Names) (tokens : List Token) :
    Option (List (String × Setting) × List Token) := do
  match tokens with
  | .blockEnd :: rest => return ([], rest)
  | .key :: start =>
    let (key, names, rest) ← scalar? names start
    let (value, names, rest) ← match rest with
      | .value :: rest =>
        if endsEntry rest && rest.head? ≠ some .blockEntry then some (.scalar .empty, names, rest)
        else setting? names rest
      | _ => some (.scalar .empty, names, rest)
    if rest.length ≤ start.length then
      let (fields, rest) ← blockFields? names rest
      return ((key.text, value) :: fields, rest)
    else none
  | _ => none
termination_by tokens.length

/-- The settings between braces; a comma may follow the last one. -/
def flowFields? (names : Names) (tokens : List Token) :
    Option (List (String × Setting) × List Token) := do
  match tokens with
  | .flowMappingEnd :: rest => return ([], rest)
  | start =>
    let marked := start.head? = some .key
    let (key, names, rest) ← scalar? names (if marked then start.tail else start)
    let (value, names, rest) ← match rest with
      | .value :: .flowEntry :: _ | .value :: .flowMappingEnd :: _ =>
        some (.scalar .empty, names, if marked then rest.tail else rest)
      | .value :: after => if marked then setting? names after else none
      | _ => some (.scalar .empty, names, rest)
    match rest with
    | .flowMappingEnd :: rest => return ([(key.text, value)], rest)
    | .flowEntry :: rest =>
      if rest.length < start.length then
        let (fields, rest) ← flowFields? names rest
        return ((key.text, value) :: fields, rest)
      else none
    | _ => none
termination_by tokens.length

/-- What the directives declare, and the tokens after them. None may be given twice. -/
def directives? (version : Bool) (handles : List (String × String)) :
    List Token → Option (Names × List Token)
  | .version :: rest => if version then none else directives? true handles rest
  | .tagDirective handle expansion :: rest =>
    if (handles.lookup handle).isSome then none
    else directives? version ((handle, expansion) :: handles) rest
  | rest => some (⟨[], handles⟩, rest)

/-- The settings at the root, and the tokens after them. An explicit document may be empty. -/
def root? (names : Names) (explicit : Bool) (tokens : List Token) :
    Option (List (String × Setting) × List Token) := do
  let (p, rest) ← properties? names tokens
  match rest with
  | .blockMapping :: rest => blockFields? names rest
  | .flowMapping :: rest => flowFields? names rest
  | [] | .documentEnd :: _ =>
    if explicit || p.anchor.isSome || p.tag.isSome then return ([], rest) else none
  | _ => none

/-- The settings of the only document of a text. -/
def fields? (tokens : List Token) : Option (List (String × Setting)) := do
  if tokens.isEmpty then return []
  let (names, rest) ← directives? false [] tokens
  let (explicit, content) ← match rest with
    | .documentStart :: rest => some (true, rest)
    | _ => if rest.length = tokens.length then some (false, rest) else none
  let (fields, rest) ← root? names explicit content
  if (rest.dropWhile (· = .documentEnd)).isEmpty then return fields else none

def parse (document : String) : Except ConfigFault Preferences :=
  match Token.ofChars? document.toList >>= fields? with
  | some fields => Preferences.ofFields fields
  | none => .error .malformed

end MigrationAudit.Yaml
