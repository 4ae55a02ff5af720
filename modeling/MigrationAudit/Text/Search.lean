namespace MigrationAudit.Text

/-- Whether `word` stands somewhere in `text`. -/
def occursIn (word : List Char) : List Char → Bool
  | [] => word.isEmpty
  | text@(_ :: rest) => word.isPrefixOf text || occursIn word rest

/-- The ends of a list, the whole and the empty one included. -/
def suffixes {α : Type} : List α → List (List α)
  | [] => [[]]
  | a :: rest => (a :: rest) :: suffixes rest

theorem length_dropWhile_le {α : Type} (p : α → Bool) (as : List α) :
    (as.dropWhile p).length ≤ as.length :=
  (List.dropWhile_suffix p).length_le

def endsWith (s ending : String) : Bool := ending.toList.isSuffixOf s.toList

/-- The pieces of a text between its separators; always one more than there are separators. -/
def split (separator : Char) : List Char → List (List Char)
  | [] => [[]]
  | c :: rest =>
    if c = separator then [] :: split separator rest
    else match split separator rest with
      | [] => [[c]]
      | piece :: pieces => (c :: piece) :: pieces

theorem split_ne_nil (separator : Char) (text : List Char) : split separator text ≠ [] := by
  cases text with
  | nil => simp [split]
  | cons c rest => grind [split]

/-- The text before and after the last separator. -/
def splitLast? (separator : Char) (text : List Char) : Option (List Char × List Char) :=
  match text.reverse.dropWhile (· ≠ separator) with
  | [] => none
  | _ :: before => some (before.reverse, (text.reverse.takeWhile (· ≠ separator)).reverse)

end MigrationAudit.Text
