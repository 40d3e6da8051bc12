import Packrat.Combinator.Site

/-!
# Combinators over one parser

Changes of value, optional matches, lookahead, and the input that a parser consumed.
-/

namespace Packrat.Parser

variable {τ ρ : Type}

/-- Another value in place of the parser's. -/
def map (f : Value τ → Value τ) (p : Parser τ ρ) : Parser τ ρ := builtIn "map" (.adapt (.map f) p)

/-- Like `map`, but `f` may refuse the value; the refusal is reported at the start of the match. -/
def mapExcept (f : Value τ → Except String (Value τ)) (p : Parser τ ρ) : Parser τ ρ :=
  builtIn "map_res" (.adapt (.refine fun v => (f v).mapError .stated) p)

/-- A match in any case: an absent value, and nothing consumed, if the parser fails. -/
def optional (p : Parser τ ρ) : Parser τ ρ := builtIn "opt" (.adapt .optional p)

/-- The parser, if it is wanted at all; otherwise an absent value. -/
def onlyIf (wanted : Bool) (p : Parser τ ρ) : Parser τ ρ :=
  builtIn "cond" (if wanted then .adapt (.map .present) p else .leaf (.succeed .absent))

/-- The value without the consumption. -/
def lookAhead (p : Parser τ ρ) : Parser τ ρ := builtIn "peek" (.adapt .lookAhead p)

/-- A match, which consumes nothing, exactly where the parser fails. -/
def notFollowedBy (p : Parser τ ρ) : Parser τ ρ := builtIn "not" (.adapt .negate p)

/-- The parser, provided that its value passes a check. -/
def verified (check : Value τ → Bool) (p : Parser τ ρ) : Parser τ ρ :=
  builtIn "verify" (.adapt (.refine fun v => if check v then .ok v else .error .unchecked) p)

/-- A fixed value in place of the parser's. -/
def replacedBy (value : Value τ) (p : Parser τ ρ) : Parser τ ρ :=
  builtIn "value" (.adapt (.map fun _ => value) p)

/-- The unit in place of the parser's value. -/
def ignored (p : Parser τ ρ) : Parser τ ρ := builtIn "discard" (.adapt (.map fun _ => .unit) p)

/-- A parser whose value goes into a slot. A failure leaves the slot as it is. -/
def storedIn (slot : String) (p : Parser τ ρ) : Parser τ ρ := .assign slot (builtIn "bind" p)

/-- The tokens that the parser consumed. -/
def consumed (p : Parser τ ρ) : Parser τ ρ := builtIn "recognize" (.adapt .consumed p)

/-- The span that the parser consumed. -/
def spanned (p : Parser τ ρ) : Parser τ ρ := builtIn "spanning" (.adapt .spanned p)

end Packrat.Parser
