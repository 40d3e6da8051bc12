import Packrat.Token

/-!
# Failures

A failed match: the offset at which the problem was noticed, and its cause. A failure holds no
cursor, because a parser that fails has consumed nothing.

* `Cause.message`: the wording of every cause.
-/

namespace Packrat

/-- Why a parser did not match. -/
inductive Cause (τ : Type) where
  /-- No token is left. -/
  | endOfInput
  /-- No token is left where a given one was wanted. -/
  | endInsteadOf (want : τ)
  /-- Another token than the one wanted. -/
  | mismatch (got want : τ)
  /-- A token that does not pass a test. -/
  | untrue (got : τ)
  /-- A token outside an allowed set, or inside a forbidden one. -/
  | notAllowed (got : τ)
  /-- A token where the end of input was wanted. -/
  | inputLeft
  /-- No alternative of a choice matched. -/
  | noAlternative
  /-- A parser matched where it must not. -/
  | matched
  /-- A value that does not pass a check. -/
  | unchecked
  /-- Fewer repetitions than the least number. -/
  | tooFew (got least most : Nat)
  /-- A cause in the words of whoever built the parser. -/
  | stated (message : String)
  /-- A cause met by the first step of the named repetition. -/
  | within (action : String) (cause : Cause τ)
deriving Repr, DecidableEq

/-- The wording of a cause. -/
def Cause.message {τ : Type} [Token τ] : Cause τ → String
  | .endOfInput => "got EOF"
  | .endInsteadOf want => "got EOF, want " ++ Token.spelling want
  | .mismatch got want => "got " ++ Token.spelling got ++ ", want " ++ Token.spelling want
  | .untrue got => Token.spelling got ++ " does not satisfy test"
  | .notAllowed got => Token.spelling got ++ " not allowed"
  | .inputLeft => "got input, want EOF"
  | .noAlternative => "no alternatives matched"
  | .matched => "not: inner parser matched"
  | .unchecked => "verify: check failed"
  | .tooFew got least most => s!"many_n: got {got}, want [{least}, {most}]"
  | .stated message => message
  | .within action cause => action ++ ": " ++ cause.message

/-- A failed match: its cause and the offset at which it was noticed. -/
structure Failure (τ : Type) where
  position : Nat
  cause : Cause τ
deriving Repr, DecidableEq

namespace Failure

variable {τ : Type}

/-- The same failure, met by the first step of the named repetition. -/
def within (action : String) (f : Failure τ) : Failure τ :=
  { f with cause := .within action f.cause }

variable [Token τ]

/-- The wording of the cause. -/
def message (f : Failure τ) : String := f.cause.message

/-- The wording of the cause followed by the position. -/
def display (f : Failure τ) : String := f.message ++ s!" (at position {f.position})"

/-- A failure with its fields named. -/
def spelling (f : Failure τ) : String :=
  s!"ParseError \x7b position: {f.position}, message: " ++ Text.quoteString f.message ++ " \x7d"

end Failure

end Packrat
