import Packrat.Combinator.Sequence

/-!
# Repetition

A parser again and again. None of these combinators guards against a parser that matches without
consuming: such a parser is repeated for ever.
-/

namespace Packrat.Parser

variable {τ ρ : Type}

/-- None or more. -/
def many (p : Parser τ ρ) : Parser τ ρ := builtIn "many0" (.repeated none p)

/-- One or more. The failure is that of the first attempt. -/
def many1 (p : Parser τ ρ) : Parser τ ρ :=
  builtIn "many1" (.andThen (.adapt (.within "many1") p) (.repeated none p) .cons)

/-- At most `most`, and a failure if there are fewer than `least`. -/
def manyBetween (least most : Nat) (p : Parser τ ρ) : Parser τ ρ :=
  let check (v : Value τ) : Except (Cause τ) (Value τ) :=
    if v.items.length < least then .error (.tooFew v.items.length least most) else .ok v
  builtIn "many_n" (.adapt (.refine check) (.repeated (some most) p))

/-- The body until `stop` matches, which is tried first at each step. The value is the list of the
body's values paired with that of `stop`. -/
def manyTill (body stop : Parser τ ρ) : Parser τ ρ := builtIn "many_till" (.till body stop)

/-- Items with delimiters between them; possibly none. -/
def sepBy (delimiter item : Parser τ ρ) : Parser τ ρ :=
  builtIn "separated_list0"
    (.orElse (.andThen item (.delimited delimiter item) .cons) (nothing (.list [])))

/-- Items with delimiters between them; at least one. -/
def sepBy1 (delimiter item : Parser τ ρ) : Parser τ ρ :=
  builtIn "separated_list1"
    (.andThen (.adapt (.within "separated_list1") item) (.delimited delimiter item) .cons)

end Packrat.Parser
