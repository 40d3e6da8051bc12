import Packrat.Combinator.Site

/-!
# Parsers in order, and choices

Collections of parsers may be lists, arrays or tuples. Whichever is used, the parsers are run from
the first to the last.

* `inOrder`: every parser of a collection, one after another.
* `choice`: the first parser of a collection that matches.
-/

namespace Packrat

/-- Fixed and ordered collections of parsers. -/
class Parts (σ : Type) (τ ρ : outParam Type) where
  /-- Every parser in turn, each after a run of `between`; the value is the list of their values. -/
  eachAfter (between : Parser τ ρ) (parts : σ) : Parser τ ρ
  /-- The first parser that matches at the start. -/
  firstOf (parts : σ) : Parser τ ρ

namespace Parser

variable {τ ρ : Type}

/-- No parser at all: a match without consumption. -/
def nothing (value : Value τ) : Parser τ ρ := .leaf (.succeed value)

/-- The second parser after the first, whose value is dropped. -/
def skipThen (between p : Parser τ ρ) : Parser τ ρ := .andThen between p fun _ v => v

end Parser

namespace Parts

open Packrat.Parser

variable {τ ρ : Type}

/-- Every parser of a list, each after a run of `between`. -/
def eachOfList (between : Parser τ ρ) : List (Parser τ ρ) → Parser τ ρ
  | [] => nothing (.list [])
  | p :: ps => .andThen (skipThen between p) (eachOfList between ps) .cons

/-- The first parser of a list that matches. -/
def firstOfList : List (Parser τ ρ) → Parser τ ρ
  | [] => .leaf (.fail .noAlternative)
  | p :: ps => .orElse p (firstOfList ps)

instance : Parts (List (Parser τ ρ)) τ ρ where
  eachAfter := eachOfList
  firstOf := firstOfList

/-- An array is worked off from the left, and the values are gathered on the way. -/
instance : Parts (Array (Parser τ ρ)) τ ρ where
  eachAfter between ps :=
    ps.foldl (fun before p => .andThen before (skipThen between p) .snoc) (nothing (.list []))
  firstOf ps := ps.foldl .orElse (.leaf (.fail .noAlternative))

/-- The last component of a tuple. -/
instance : Parts (Parser τ ρ) τ ρ where
  eachAfter between p := .andThen (skipThen between p) (nothing (.list [])) .cons
  firstOf p := p

instance {σ : Type} [Parts σ τ ρ] : Parts (Parser τ ρ × σ) τ ρ where
  eachAfter between parts :=
    .andThen (skipThen between parts.1) (Parts.eachAfter between parts.2) .cons
  firstOf parts := .orElse parts.1 (Parts.firstOf parts.2)

end Parts

namespace Parser

variable {τ ρ σ : Type}

/-- Every parser of a collection in turn. The value is the list of their values; the first failure is
the failure of the whole. -/
def inOrder [Parts σ τ ρ] (parts : σ) : Parser τ ρ :=
  builtIn "seq" (Parts.eachAfter (nothing .unit) parts)

/-- The first parser of a collection that matches. If none does, their failures are dropped. -/
def choice [Parts σ τ ρ] (parts : σ) : Parser τ ρ :=
  builtIn "alt" (.adapt (.otherwise .noAlternative) (Parts.firstOf parts))

/-- The list that `head` gives followed by one value from each parser of a collection. -/
def extendedBy [Parts σ τ ρ] (head : Parser τ ρ) (tail : σ) : Parser τ ρ :=
  builtIn "append" (.andThen head (inOrder tail) .append)

/-- The values of two parsers as a pair. -/
def both (p q : Parser τ ρ) : Parser τ ρ := builtIn "pair" (.andThen p q .pair)

/-- The first part of a pair. -/
def leftPart (p : Parser τ ρ) : Parser τ ρ := builtIn "first" (.adapt (.map .left) p)

/-- The second part of a pair. -/
def rightPart (p : Parser τ ρ) : Parser τ ρ := builtIn "second" (.adapt (.map .right) p)

/-- Two parsers of which the second gives the value. -/
def keepRight (p q : Parser τ ρ) : Parser τ ρ := builtIn "preceded" (skipThen p q)

/-- Two parsers of which the first gives the value. -/
def keepLeft (p q : Parser τ ρ) : Parser τ ρ := builtIn "terminated" (.andThen p q fun v _ => v)

/-- The value of `middle`, between `opening` and `closing`. -/
def between (opening closing middle : Parser τ ρ) : Parser τ ρ :=
  builtIn "surrounded" (.andThen (skipThen opening middle) closing fun v _ => v)

end Parser

end Packrat
