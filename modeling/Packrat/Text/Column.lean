import Packrat.Text.Quoted

/-!
# Text in a fixed column

The layout of a line that shows a piece of input: the input escaped to ASCII, cut, boxed and padded
to a fixed width, and long passages shortened to their two ends.

* `inputColumn`: upcoming input between bars, padded to `columnWidth`.
* `abbreviate`: a text of more than twenty characters as its first ten and its last ten.
-/

namespace Packrat.Text

/-- The width of the input column. -/
def columnWidth : Nat := 35

/-- The number of characters of input that the column can show between its bars. -/
def shownWidth : Nat := 33

/-- `s` followed by the spaces that it lacks to a width of `width` characters. -/
def padRight (width : Nat) (s : String) : String :=
  s ++ String.ofList (List.replicate (width - s.length) ' ')

/-- The ASCII form of `c`: both quotation marks, the backslash, tab, carriage return and line feed
by a backslash, all else outside the printable ASCII range by its code point. -/
def escapeAscii (c : Char) : List Char :=
  if c = '\t' then ['\\', 't']
  else if c = '\r' then ['\\', 'r']
  else if c = '\n' then ['\\', 'n']
  else if c = '\'' || c = '"' || c = '\\' then ['\\', c]
  else if 0x20 ≤ c.toNat && c.toNat ≤ 0x7E then [c]
  else codePointEscape c

/-- Drops the backslash before each `mark`, from left to right. -/
def bareMarks (mark : Char) : List Char → List Char
  | '\\' :: c :: rest => if c = mark then c :: bareMarks mark rest else '\\' :: bareMarks mark (c :: rest)
  | c :: rest => c :: bareMarks mark rest
  | [] => []

/-- Upcoming input: cut before the escape and again after it, so that at most `shownWidth` characters
stand between the bars, with quotation marks bare, padded to `columnWidth`. -/
def inputColumn (s : String) : String :=
  let escaped := (s.toList.take shownWidth).flatMap escapeAscii
  let shown := (bareMarks '\'' (bareMarks '"' escaped)).take shownWidth
  padRight columnWidth (String.ofList ('|' :: shown ++ ['|']))

/-- A text of at most twenty characters as it is, a longer one as its first ten and its last ten
around three dots. -/
def abbreviate (s : String) : String :=
  let chars := s.toList
  if chars.length ≤ 20 then s
  else String.ofList (chars.take 10 ++ ['.', '.', '.'] ++ chars.drop (chars.length - 10))

end Packrat.Text
