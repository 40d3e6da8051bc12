import Packrat.Combinator.Repetition
import Packrat.Combinator.Tokens
import Packrat.Text.Letter

/-!
# Parsers of characters

Literals, classes of ASCII characters, line ends, and combinators that put texts together or allow
blanks between the parts of a phrase.

* `CharClass`: the classes, their names and their tests.
* `phrase`: parts with blanks allowed before each.
* `written`: the text that a parser consumed.
-/

namespace Packrat

/-- A class of characters, all of them ASCII. -/
inductive CharClass where
  | alpha
  | digit
  | hexDigit
  | octalDigit
  | alphanumeric
  /-- Space and tab. -/
  | space
  /-- Space, tab, carriage return and line feed. -/
  | multispace
  /-- Plus and minus. -/
  | sign
deriving Repr, DecidableEq

namespace CharClass

/-- The name of a class. -/
def name : CharClass → String
  | .alpha => "alpha"
  | .digit => "digit"
  | .hexDigit => "hex_digit"
  | .octalDigit => "octal_digit"
  | .alphanumeric => "alphanumeric"
  | .space => "space"
  | .multispace => "multispace"
  | .sign => "sign"

/-- The class of that name. -/
def ofName? (name : String) : Option CharClass :=
  [alpha, digit, hexDigit, octalDigit, alphanumeric, space, multispace, sign].find?
    (·.name == name)

/-- Whether a character belongs to a class. -/
def contains : CharClass → Char → Bool
  | .alpha, c => c.isAlpha
  | .digit, c => c.isDigit
  | .hexDigit, c => c.isDigit || ('a' ≤ c && c ≤ 'f') || ('A' ≤ c && c ≤ 'F')
  | .octalDigit, c => '0' ≤ c && c ≤ '7'
  | .alphanumeric, c => c.isAlphanum
  | .space, c => c == ' ' || c == '\t'
  | .multispace, c => c == ' ' || c == '\t' || c == '\r' || c == '\n'
  | .sign, c => c == '+' || c == '-'

end CharClass

/-- The text of a list of characters or of texts: its items one after another. -/
def Value.joined (v : Value Char) : Value Char := .text (Value.contents v.items)

namespace Parser

variable {ρ : Type}

/-- The text that a parser of characters or texts gives as a list. -/
def joined (p : Parser Char ρ) : Parser Char ρ := map Value.joined p

/-- The text that a parser consumed. -/
def written (p : Parser Char ρ) : Parser Char ρ := map Value.joined (consumed p)

/-- The character `want` in either case. -/
def eitherCase (want : Char) : Parser Char ρ := satisfying fun got => Text.sameIgnoringCase got want

/-- The text `tag`. -/
def tag (tag : String) : Parser Char ρ := joined (inOrder (tag.toList.map exactly))

/-- The text `tag` in any case; the value is the text as it stands in the input. -/
def tagInAnyCase (tag : String) : Parser Char ρ := joined (inOrder (tag.toList.map eitherCase))

/-- A character of the text. -/
def charIn (allowed : String) : Parser Char ρ := oneOf allowed.toList

/-- A character that is not in the text. -/
def charNotIn (forbidden : String) : Parser Char ρ := noneOf forbidden.toList

/-- One character of a class. -/
def charOf (cls : CharClass) : Parser Char ρ :=
  named ("chars::" ++ cls.name) (satisfying cls.contains)

/-- The characters of a class that come next; possibly none. -/
def run0 (cls : CharClass) : Parser Char ρ :=
  named ("chars::" ++ cls.name ++ "0") (joined (many (satisfying cls.contains)))

/-- The characters of a class that come next, at least one. -/
def run1 (cls : CharClass) : Parser Char ρ :=
  named ("chars::" ++ cls.name ++ "1") (joined (many1 (satisfying cls.contains)))

/-- A line feed. -/
def newline : Parser Char ρ := named "chars::newline" (exactly '\n')

/-- A line feed, also after a carriage return. The value is the line feed. -/
def endOfLine : Parser Char ρ :=
  named "chars::eol" (keepRight (optional (exactly '\r')) (exactly '\n'))

/-- Spaces and tabs, possibly none. -/
def blanks : Parser Char ρ := run0 .space

/-- Like `inOrder`, with blanks allowed before each part. -/
def phrase {σ : Type} [Parts σ Char ρ] (parts : σ) : Parser Char ρ := Parts.eachAfter blanks parts

/-- The value of `middle`, between `opening` and `closing`, with blanks allowed before each of the
three. -/
def enclosed (opening closing middle : Parser Char ρ) : Parser Char ρ :=
  between (keepRight blanks opening) (keepRight blanks closing) (keepRight blanks middle)

/-- The value of `middle` between two characters, with blanks allowed before each of the three. -/
def enclosedBy (opening closing : Char) (middle : Parser Char ρ) : Parser Char ρ :=
  enclosed (exactly opening) (exactly closing) middle

/-- The text of a character followed by a text. -/
def charThenText (head tail : Parser Char ρ) : Parser Char ρ :=
  joined (inOrder (map (fun v => .text v.content) head, tail))

end Parser

end Packrat
