import Packrat.Text.Visible

/-!
# Quoted text

Characters and strings as messages show them: between quotation marks, with the mark itself, the
backslash and four controls escaped by a backslash, and every other character that is not visible
written as its code point in hexadecimal.

* `quoteChar`, `quoteString`: the quoted forms. The mark of the other kind is not escaped.
-/

namespace Packrat.Text

/-- The code point of `c` in lower-case hexadecimal digits, between `\u{` and a closing brace. -/
def codePointEscape (c : Char) : List Char :=
  ['\\', 'u', '{'] ++ Nat.toDigits 16 c.toNat ++ ['}']

/-- The form of `c` inside a quotation that ends with `mark`. -/
def escape (mark c : Char) : List Char :=
  if c = '\x00' then ['\\', '0']
  else if c = '\t' then ['\\', 't']
  else if c = '\n' then ['\\', 'n']
  else if c = '\r' then ['\\', 'r']
  else if c = '\\' || c = mark then ['\\', c]
  else if isVisible c then [c]
  else codePointEscape c

/-- A character between single quotation marks. -/
def quoteChar (c : Char) : String :=
  String.ofList ('\'' :: escape '\'' c ++ ['\''])

/-- A text between double quotation marks. -/
def quoteString (s : String) : String :=
  String.ofList ('"' :: s.toList.flatMap (escape '"') ++ ['"'])

end Packrat.Text
