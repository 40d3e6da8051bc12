import Packrat.Characters

/-!
# Email addresses

A name, an at sign, and a domain of labels with dots between them, of which the last is a top-level
domain of two to four letters. Names and labels are taken as long as possible.
-/

namespace Packrat.Email

/-- Whether `c` may stand in the name: ASCII letters and digits, and five signs. -/
def isNameChar (c : Char) : Bool :=
  c.isAlphanum || c == '.' || c == '_' || c == '%' || c == '+' || c == '-'

/-- Whether `c` may stand in a label: ASCII letters and digits, and the hyphen. -/
def isLabelChar (c : Char) : Bool := c.isAlphanum || c == '-'

/-- Whether a label can be a top-level domain. -/
def isTopLevel (label : List Char) : Bool :=
  2 ≤ label.length && label.length ≤ 4 && label.all Char.isAlpha

/-- Whether labels make a domain: two or more, of which the last is a top-level domain. -/
def isDomain (labels : List (List Char)) : Bool :=
  2 ≤ labels.length && (labels.getLast?.any isTopLevel)

/-- The characters of a list of characters. -/
def labelOf (v : Value Char) : List Char :=
  v.items.filterMap fun
    | .token c => some c
    | _ => none

variable {ρ : Type}

/-- The name before the at sign. -/
def mailbox : Parser Char ρ := .many1 (.satisfying isNameChar)

/-- The domain after the at sign. -/
def domain : Parser Char ρ :=
  .verified (fun v => isDomain (v.items.map labelOf))
    (.sepBy1 (.exactly '.') (.many1 (.satisfying isLabelChar)))

/-- The three parts of an address. -/
def addressParts : List (Parser Char ρ) :=
  [.ignored mailbox, .ignored (.exactly '@'), .ignored domain]

/-- An email address; the value is its text. -/
def address : Parser Char ρ :=
  .named "email::address" (.written (.inOrder (addressParts : List (Parser Char ρ))))

end Packrat.Email
