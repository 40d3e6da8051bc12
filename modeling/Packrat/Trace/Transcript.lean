import Packrat.Log
import Packrat.Text.Column
import Packrat.Trace.Filter

/-!
# Transcripts

A transcript writes one line to the log for every entry and every exit of a site that its filter
allows: the input that comes next, the name of the site indented by the number of allowed sites that
are open around it, and the offset or the result.

* `Transcript.hear`: the line of a signal, and the depth after it.
-/

namespace Packrat

/-- A tracer that writes lines at a level, and the number of allowed sites that are open. -/
structure Transcript where
  filter : Filter
  level : Level
  depth : Nat

namespace Transcript

/-- The width to which site names are padded. -/
def labelWidth : Nat := 15

variable {τ : Type} [Token τ]

/-- The column that shows the input at a cursor. -/
def upcoming (c : Cursor τ) : String :=
  Text.inputColumn (Token.preview (c.window Text.columnWidth))

/-- The part that all lines have in common: the input, and the name at its depth. -/
def label (depth : Nat) (name : String) (start : Cursor τ) : String :=
  upcoming start ++ " " ++ String.ofList (List.replicate (2 * depth) ' ') ++
    Text.padRight labelWidth name

/-- The line of an entry. -/
def enterLine (depth : Nat) (name : String) (start : Cursor τ) : String :=
  label depth name start ++ s!" @{start.offset}"

/-- The line of an exit: the failure, or the value and, shortened, the input that was consumed. -/
def exitLine (depth : Nat) (name : String) (start stop : Cursor τ)
    (outcome : Except (Failure τ) (Value τ)) : String :=
  let result := match outcome with
    | .ok v =>
      let source := Text.abbreviate (Token.preview (start.consumed stop))
      "< " ++ v.spelling ++ " [from " ++ Text.quoteString source ++ "]"
    | .error f => "! " ++ f.display
  label depth name start ++ " : " ++ result

/-- The transcript after a signal and, as far as the limit of the log keeps its level, the line of
the signal. -/
def hear (limit : Option Level) (t : Transcript) : Signal τ → Transcript × List Record
  | .enter name start =>
    if t.filter.allows name then
      ({ t with depth := t.depth + 1 },
        if t.level.isWithin limit then [⟨t.level, enterLine t.depth name start⟩] else [])
    else (t, [])
  | .exit name start stop outcome =>
    if t.filter.allows name then
      let t := { t with depth := t.depth - 1 }
      (t, if t.level.isWithin limit then [⟨t.level, exitLine t.depth name start stop outcome⟩]
        else [])
    else (t, [])
  | .memo .. => (t, [])

end Transcript

end Packrat
