import Packrat.Combinator.Sequence
import Packrat.Combinator.Transform

/-!
# Parsers of single tokens

The parsers that look at the input themselves, for any kind of token.
-/

namespace Packrat.Parser

variable {τ ρ : Type}

/-- A token that passes a test. -/
def satisfying (test : τ → Bool) : Parser τ ρ :=
  builtIn "satisfy" (.leaf (.token test .endOfInput .untrue))

/-- Any token. -/
def anyToken : Parser τ ρ := builtIn "any" (.leaf (.token (fun _ => true) .endOfInput .notAllowed))

/-- All tokens that are left; never fails. -/
def remainder : Parser τ ρ := builtIn "rest" (.leaf .remainder)

/-- The number of tokens that are left, all of which are consumed; never fails. -/
def remainderLength : Parser τ ρ :=
  builtIn "rest_len" (.adapt (.map fun v => .number v.items.length) (.leaf .remainder))

/-- The end of input. -/
def endOfInput : Parser τ ρ := builtIn "eof" (.leaf .endOfInput)

/-- A match without consumption. -/
def succeed (value : Value τ) : Parser τ ρ := builtIn "success" (.leaf (.succeed value))

/-- A failure in the given words. -/
def fail (message : String) : Parser τ ρ := builtIn "failure" (.leaf (.fail (.stated message)))

/-- The parser, which must then have used up all input. -/
def toEnd (p : Parser τ ρ) : Parser τ ρ := builtIn "all_consuming" (keepLeft p endOfInput)

variable [DecidableEq τ]

/-- The token `want`. -/
def exactly (want : τ) : Parser τ ρ :=
  builtIn "expect" (.leaf (.token (· = want) (.endInsteadOf want) (.mismatch · want)))

/-- The tokens of `literal` in turn; the value is the literal. -/
def literally (literal : List τ) : Parser τ ρ :=
  builtIn "expects" (replacedBy (.tokens literal) (inOrder (literal.map exactly)))

/-- A token of the list. -/
def oneOf (allowed : List τ) : Parser τ ρ :=
  builtIn "one_of" (.leaf (.token (· ∈ allowed) .endOfInput .notAllowed))

/-- A token that is not in the list. -/
def noneOf (forbidden : List τ) : Parser τ ρ :=
  builtIn "none_of" (.leaf (.token (· ∉ forbidden) .endOfInput .notAllowed))

end Packrat.Parser
