import Packrat.Text.Integer
import Packrat.Value

/-!
# Conversions

Changes of a value that may refuse it, for use under `mapExcept`.

* `Value.toInteger`: the integer that a value spells.
* `Value.nonEmpty`: the value itself, unless it is empty.
-/

namespace Packrat.Value

variable {τ : Type}

/-- The value itself, unless it has no length. -/
def nonEmpty (v : Value τ) : Except String (Value τ) :=
  if v.length = 0 then .error "empty value" else .ok v

variable [Token τ]

/-- The integer of the range `range` that the content of a value spells in decimal. -/
def toInteger (range : Text.IntegerRange) (v : Value τ) : Except String (Value τ) :=
  match range.read v.content.toList with
  | .ok n => .ok (.number n)
  | .error e => .error e.message

end Packrat.Value
