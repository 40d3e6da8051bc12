import Packrat.Pattern
import Packrat.Pattern.Automaton
import Packrat.Pattern.Escape

/-!
# Drafts of patterns

A pattern that is being read, with what decides in the end whether it is accepted: how deeply it is
nested, and the shape from which its automata are built.

* `Draft`: a part of a pattern.
* `Draft.inOrder`, `Draft.alternatives`, `Draft.captured`, `Draft.repeated`: the ways to make a part
  of parts.
* `Draft.finished`: the pattern, unless it is nested too deeply or too large.
-/

namespace Packrat

/-- A part of a pattern that is being read. -/
structure Draft where
  pattern : Pattern
  shape : Shape
  /-- The number of levels that are nested in the part. -/
  depth : Nat
deriving Repr, DecidableEq

namespace Draft

/-- Nothing. -/
def empty : Draft := ⟨.empty, .empty, 0⟩

instance : Inhabited Draft := ⟨empty⟩

/-- One character of a set, in a notation with `depth` levels. -/
def chars (set : CharSet) (depth : Nat) : Draft := ⟨.chars set, .ofSet set, depth⟩

/-- The start of the text. -/
def start : Draft := ⟨.start, .start, 0⟩

/-- The end of the text. -/
def stop : Draft := ⟨.stop, .stop, 0⟩

/-- The number of levels in parts side by side. Two or more of them are one level deeper. -/
def depthOf (parts : List Draft) : Nat :=
  let deepest := (parts.map (·.depth)).foldr max 0
  if parts.length < 2 then deepest else deepest + 1

/-- Parts in turn. -/
def inOrder (parts : List Draft) : Draft :=
  { pattern := (parts.map (·.pattern)).foldr Pattern.seq .empty
    shape := .inOrder (parts.map (·.shape))
    depth := depthOf parts }

/-- Parts of which one has to match: the first, or one of the rest. -/
def alternatives (first : Draft) (rest : List Draft) : Draft :=
  { pattern := (rest.map (·.pattern)).foldl Pattern.alt first.pattern
    shape := .anyOf ((first :: rest).map (·.shape))
    depth := depthOf (first :: rest) }

/-- A part in parentheses, which are one level. -/
def grouped (d : Draft) : Draft := { d with depth := d.depth + 1 }

/-- A part in parentheses that note where it matched. -/
def captured (d : Draft) : Draft := { d.grouped with shape := .captured d.shape }

/-- At least `least` matches of a part in turn, and at most `most` if there is such a limit. A match
of a blank part changes nothing when it is repeated, so the pattern has it once. -/
def repeated (least : Nat) (most : Option Nat) (greedy : Bool) (d : Draft) : Draft :=
  let (few, many) := d.shape.bounds least most
  { pattern := d.pattern.repeated few many
    shape := d.shape.times least most greedy
    depth := d.depth + 1 }

/-- The number of levels that a pattern may have. -/
def depthLimit : Nat := 250

/-- The pattern of a whole draft. -/
def finished (d : Draft) : Except PatternError Pattern :=
  if depthLimit < d.depth then .error .tooDeep
  else if d.shape.fits then .ok d.pattern
  else .error .tooLarge

end Draft

end Packrat
