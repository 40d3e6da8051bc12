import Packrat.Text.Quoted
import Packrat.Text.Utf8

/-!
# Tokens

What a parser reads is an array of tokens: characters, bytes, or the lexemes of a scanner. The
parsers themselves only compare tokens; their texts are needed where tokens are shown.
-/

namespace Packrat

/-- The texts of a kind of token. -/
class Token (τ : Type) where
  /-- One token as messages show it. -/
  spelling : τ → String
  /-- One token as the text that it stands for. -/
  text : τ → String
  /-- A run of tokens as the text that it stands for. -/
  preview : List τ → String

instance : Token Char where
  spelling := Text.quoteChar
  text := String.singleton
  preview := String.ofList

/-- A byte stands for the character of the same number, a run of bytes for its reading as UTF-8. -/
instance : Token UInt8 where
  spelling b := toString b.toNat
  text b := String.singleton (Char.ofNat b.toNat)
  preview := Text.Utf8.ofBytes

/-- A token of a scanner, known by its number alone. -/
structure Lexeme where
  number : Int
deriving Repr, DecidableEq

instance : Token Lexeme where
  spelling t := toString t.number
  text t := toString t.number
  preview ts := " ".intercalate (ts.map fun t => toString t.number)

end Packrat
