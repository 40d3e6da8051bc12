/-!
# Signs and escapes of the pattern notation

Which characters are signs of the notation, how a text is written so that it stands for itself, and
why a text may fail to be the notation of a pattern.

* `quote`: the notation of a text as it stands.
* `escaped?`: the character that a backslash before another one stands for.
-/

namespace Packrat

/-- Why a text is not the notation of a pattern. -/
inductive PatternError where
  | openGroup
  | openClass
  | unmatchedClosing
  | nothingToRepeat
  | badCount
  | badRange
  | badEscape
  | badGroup
  /-- Groups, classes and repetitions nested too deeply. -/
  | tooDeep
  /-- A pattern with too large an automaton. -/
  | tooLarge
deriving Repr, DecidableEq

namespace Pattern

/-- Whether a sign needs a backslash to stand for itself. -/
def isMeta (c : Char) : Bool :=
  c ∈ ['\\', '.', '+', '*', '?', '(', ')', '|', '[', ']', '{', '}', '^', '$', '#', '&', '-', '~']

/-- The notation of a text as it stands. -/
def quote (text : List Char) : List Char :=
  text.flatMap fun c => if isMeta c then ['\\', c] else [c]

/-- The character that a backslash before `c` stands for: a control, or an ASCII sign. -/
def escaped? (c : Char) : Option Char :=
  if c = 'n' then some '\n'
  else if c = 't' then some '\t'
  else if c = 'r' then some '\r'
  else if c = 'f' then some '\x0c'
  else if c = 'v' then some '\x0b'
  else if c = 'a' then some '\x07'
  else if c.toNat < 0x80 && !c.isAlphanum && c != '<' && c != '>' then some c
  else none

end Pattern

end Packrat
