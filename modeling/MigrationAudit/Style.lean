namespace MigrationAudit

inductive Colour where
  | red
  | green
  | yellow
  | blue
  | cyan
  deriving DecidableEq, Repr

/-- The Select Graphic Rendition parameter that sets the colour. -/
def Colour.code : Colour → String
  | red => "31"
  | green => "32"
  | yellow => "33"
  | blue => "34"
  | cyan => "36"

structure Style where
  bold : Bool
  colour : Option Colour
  deriving DecidableEq, Repr

namespace Style

def plain : Style := ⟨false, none⟩
def bolded : Style := ⟨true, none⟩
def coloured (c : Colour) : Style := ⟨false, some c⟩
def strong (c : Colour) : Style := ⟨true, some c⟩

/-- A sequence that switches the terminal's rendition. -/
def sequence (code : String) : String := "\x1b[" ++ code ++ "m"

/-- Sets the style around a text and resets it after, the colour inside the weight. -/
def apply (s : Style) (text : String) : String :=
  let inner := match s.colour with
    | some c => sequence c.code ++ text ++ sequence "39"
    | none => text
  if s.bold then sequence "1" ++ inner ++ sequence "0" else inner

end Style

end MigrationAudit
