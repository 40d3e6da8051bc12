/-!
# Regular expressions

What a filter asks of regular expressions. It compiles patterns, asks whether a compiled pattern is
found in a name, and escapes texts that are to stand for themselves. How an engine does this is left
open here, and so is what its errors say. What is known of an engine is said in terms of matches: of
which parts of which texts a pattern matches.

* `Regex`: a compiled pattern.
* `Regex.Engine`: what compiles patterns and escapes texts.
* `Regex.Engine.Searches`, `Regex.Engine.Escapes`, `Regex.Engine.Anchors`: what engines promise.
-/

namespace Packrat

/-- A compiled pattern, as far as filters use it. -/
structure Regex where
  /-- Whether the pattern is found in a text. -/
  isMatch : String → Bool

namespace Regex

/-- An engine for regular expressions. -/
structure Engine where
  /-- Why a pattern is refused. -/
  Error : Type
  /-- Compiles a pattern, if it is valid. -/
  compile : String → Except Error Regex
  /-- The pattern of a text as it stands. -/
  escape : String → String

namespace Engine

variable (engine : Engine)

/-- The pattern is valid. -/
def Accepts (pattern : String) : Prop := ∃ regex, engine.compile pattern = .ok regex

instance (pattern : String) : Decidable (engine.Accepts pattern) :=
  match h : engine.compile pattern with
  | .ok regex => isTrue ⟨regex, h⟩
  | .error _ => isFalse fun ⟨_, h'⟩ => nomatch h.symm.trans h'

variable (Spans : String → String → Nat → Nat → Prop)

/-- A compiled pattern is searched for anywhere in a text. The pattern `p` matches the text `t` from
the offset `i` up to the offset `j` if `Spans p t i j` holds. -/
def Searches : Prop :=
  ∀ pattern regex, engine.compile pattern = .ok regex →
    ∀ text, regex.isMatch text = true ↔ ∃ i j, Spans pattern text i j

/-- An escaped text is a valid pattern that matches just the text. -/
structure Escapes : Prop where
  accepted : ∀ s, engine.Accepts (engine.escape s)
  spans_iff : ∀ s text i j, Spans (engine.escape s) text i j ↔
    ∃ before after, text = before ++ s ++ after ∧ i = before.length ∧ j = i + s.length
  /-- A text is escaped one character after the other. -/
  append : ∀ s t, engine.escape (s ++ t) = engine.escape s ++ engine.escape t
  /-- Colons need no escape. -/
  colons : engine.escape "::" = "::"

/-- A circumflex in front of an escaped text binds it to the start of the text in which it is
searched for. -/
structure Anchors : Prop where
  accepted : ∀ s, engine.Accepts ("^" ++ engine.escape s)
  spans_iff : ∀ s text i j,
    Spans ("^" ++ engine.escape s) text i j ↔ i = 0 ∧ Spans (engine.escape s) text i j

end Engine

end Regex

end Packrat
