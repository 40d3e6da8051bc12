import Packrat.Combinator.Tokens

/-!
# Parsers of bytes

Literals of bytes. Their value is the part of the input that they consumed.
-/

namespace Packrat.Parser

variable {ρ : Type}

/-- The bytes of `tag`. -/
def bytesTag (tag : List UInt8) : Parser UInt8 ρ := consumed (inOrder (tag.map exactly))

/-- An ASCII letter in upper case as the same letter in lower case, any other byte as it is. -/
def lowerByte (b : UInt8) : UInt8 := if 0x41 ≤ b && b ≤ 0x5A then b + 0x20 else b

/-- The bytes of `tag`, its ASCII letters in either case. -/
def bytesTagInAnyCase (tag : List UInt8) : Parser UInt8 ρ :=
  consumed (inOrder (tag.map fun want => satisfying fun got => lowerByte got == lowerByte want))

end Packrat.Parser
