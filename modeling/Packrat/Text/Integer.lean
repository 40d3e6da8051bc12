/-!
# Integers in decimal

Reading a decimal integer that has to lie in a given range. The digits are read from left to right
and the first problem met is the one reported: a character that is not a digit, or a value outside
the range.

* `IntegerRange.read`: the reader.
* `IntegerError.message`: the wording of its errors.
-/

namespace Packrat.Text

/-- The integers from `least` to `most`. -/
structure IntegerRange where
  least : Int
  most : Int
deriving Repr, DecidableEq

/-- Why a text is not an integer of a range. -/
inductive IntegerError where
  | empty
  | invalidDigit
  | tooLarge
  | tooSmall
deriving Repr, DecidableEq

/-- The wording of an error. -/
def IntegerError.message : IntegerError → String
  | .empty => "cannot parse integer from empty string"
  | .invalidDigit => "invalid digit found in string"
  | .tooLarge => "number too large to fit in target type"
  | .tooSmall => "number too small to fit in target type"

/-- The value of an ASCII digit. -/
def digitValue? (c : Char) : Option Nat :=
  if c.isDigit then some (c.toNat - '0'.toNat) else none

namespace IntegerRange

/-- The integers of `bits` bits without a sign. -/
def unsigned (bits : Nat) : IntegerRange := ⟨0, .pow 2 bits - 1⟩

/-- The integers of `bits` bits in two's complement. -/
def signed (bits : Nat) : IntegerRange := ⟨-.pow 2 (bits - 1), .pow 2 (bits - 1) - 1⟩

/-- Continues the number `n` by further digits. -/
def readDigits (r : IntegerRange) (n : Int) : List Char → Except IntegerError Int
  | [] => .ok n
  | c :: rest =>
    match digitValue? c with
    | none => .error .invalidDigit
    | some d =>
      if n * 10 + d ≤ r.most then readDigits r (n * 10 + d) rest else .error .tooLarge

/-- Continues the negative number `n` by further digits, counted downwards. -/
def readNegativeDigits (r : IntegerRange) (n : Int) : List Char → Except IntegerError Int
  | [] => .ok n
  | c :: rest =>
    match digitValue? c with
    | none => .error .invalidDigit
    | some d =>
      if r.least ≤ n * 10 - d then readNegativeDigits r (n * 10 - d) rest else .error .tooSmall

/-- Reads one or more digits, after a plus sign or, in a range with negative numbers, a minus sign.
A sign alone is an invalid digit. -/
def read (r : IntegerRange) : List Char → Except IntegerError Int
  | [] => .error .empty
  | ['+'] => .error .invalidDigit
  | ['-'] => .error .invalidDigit
  | '+' :: rest => r.readDigits 0 rest
  | c :: rest =>
    if c = '-' && r.least < 0 then r.readNegativeDigits 0 rest else r.readDigits 0 (c :: rest)

end IntegerRange

end Packrat.Text
