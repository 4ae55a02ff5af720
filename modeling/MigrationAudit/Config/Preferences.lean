namespace MigrationAudit

/-- A single value as a settings file writes it. -/
structure Scalar where
  text : String
  plain : Bool
  tag : Option String
  deriving DecidableEq, Repr

namespace Scalar

def quoted (text : String) : Scalar := ⟨text, false, none⟩

/-- What stands for a value that was left out. -/
def empty : Scalar := ⟨"", true, none⟩

def isBlank (s : Scalar) : Bool := s.plain && s.text = ""

def nullWords : List String := ["null", "Null", "NULL", "~"]

def nullTag : String := "tag:yaml.org,2002:null"

end Scalar

/-- The value of one setting. -/
inductive Setting where
  | scalar (s : Scalar)
  | list (items : List String)
  deriving DecidableEq, Repr

/-- What is wrong with a settings file. -/
inductive ConfigFault where
  | malformed
  | unknownKey (key : String)
  | repeatedKey (key : String)
  | badValue (key : String)
  deriving DecidableEq, Repr

def ConfigFault.message : ConfigFault → String
  | malformed => "the file is not well formed"
  | unknownKey key => s!"unknown setting {key}"
  | repeatedKey key => s!"setting {key} is given twice"
  | badValue key => s!"setting {key} has a value of the wrong kind"

/-- What a settings file can set. -/
structure Preferences where
  output : Option String
  view : Option String
  failOn : Option String
  exclude : List String
  deriving DecidableEq, Repr

namespace Setting

/-- A text, or nothing where none was meant. A quoted value is never nothing. -/
def optionalText? : Setting → Option (Option String)
  | list _ => none
  | scalar s =>
    if !s.plain then some (some s.text)
    else match s.tag with
      | none => some (if s.text = "" ∨ s.text ∈ Scalar.nullWords then none else some s.text)
      | some tag =>
        if tag = Scalar.nullTag then if s.text ∈ Scalar.nullWords then some none else none
        else some (some s.text)

/-- A list of texts; leaving the value out gives the empty one. -/
def texts? : Setting → Option (List String)
  | list items => some items
  | scalar s => if s.isBlank then some [] else none

end Setting

namespace Preferences

def empty : Preferences := ⟨none, none, none, []⟩

def put (p : Preferences) (key : String) (value : Setting) : Except ConfigFault Preferences :=
  let bad := Except.error (ConfigFault.badValue key)
  match key with
  | "output" => value.optionalText?.elim bad fun text => .ok { p with output := text }
  | "filter" => value.optionalText?.elim bad fun text => .ok { p with view := text }
  | "fail_on" => value.optionalText?.elim bad fun text => .ok { p with failOn := text }
  | "exclude" => value.texts?.elim bad fun items => .ok { p with exclude := items }
  | _ => .error (.unknownKey key)

/-- The settings of a file; none may be given twice. -/
def ofFields : List (String × Setting) → Except ConfigFault Preferences
  | [] => .ok empty
  | (key, value) :: rest => do
    if rest.any (·.1 = key) then .error (.repeatedKey key)
    else (← ofFields rest).put key value

end Preferences

end MigrationAudit
