import Packrat.Arithmetic.Expr
import Packrat.Cursor
import Packrat.Token

/-!
# Values

What parsers produce. One type serves all parsers, so that parsers of different results can stand in
one list and in one grammar.

* `Value.spelling`: a value as messages and trace events show it.
* `Value.items`, `Value.left`, `Value.right`: the parts of lists and pairs.
-/

namespace Packrat

/-- The result of a match. -/
inductive Value (τ : Type) where
  | unit
  | token (t : τ)
  | text (s : String)
  | number (n : Int)
  | list (items : List (Value τ))
  | pair (left right : Value τ)
  | absent
  | present (value : Value τ)
  | span (s : Span τ)
  | expr (e : Arithmetic.Expr)

namespace Value

variable {τ : Type}

instance : Inhabited (Value τ) := ⟨.unit⟩

/-- A list of tokens. -/
def tokens (ts : List τ) : Value τ := .list (ts.map .token)

/-- The items of a list. No other value has any. -/
def items : Value τ → List (Value τ)
  | .list vs => vs
  | _ => []

/-- The first part of a pair. Any other value has the unit there. -/
def left : Value τ → Value τ
  | .pair a _ => a
  | _ => .unit

/-- The second part of a pair. Any other value has the unit there. -/
def right : Value τ → Value τ
  | .pair _ b => b
  | _ => .unit

/-- The list that begins with `v` and goes on with the items of `w`. -/
def cons (v w : Value τ) : Value τ := .list (v :: w.items)

/-- The list of the items of `v` and, last, `w`. -/
def snoc (v w : Value τ) : Value τ := .list (v.items ++ [w])

/-- The list of the items of `v` and those of `w`. -/
def append (v w : Value τ) : Value τ := .list (v.items ++ w.items)

/-- The list with `v` in front, in the first part of a pair. -/
def consLeft (v w : Value τ) : Value τ := .pair (v.cons w.left) w.right

/-- A pair with its parts exchanged. -/
def swap (v : Value τ) : Value τ := .pair v.right v.left

/-- The items of the items of a list. -/
def flatten (v : Value τ) : Value τ := .list (v.items.flatMap items)

/-- The items of a list from the last to the first. -/
def reverse (v : Value τ) : Value τ := .list v.items.reverse

variable [Token τ]

mutual

/-- A value as messages and trace events show it. -/
def spelling : Value τ → String
  | .unit => "()"
  | .token t => Token.spelling t
  | .text s => Text.quoteString s
  | .number n => toString n
  | .list vs => "[" ++ ", ".intercalate (spellings vs) ++ "]"
  | .pair a b => "(" ++ a.spelling ++ ", " ++ b.spelling ++ ")"
  | .absent => "None"
  | .present v => "Some(" ++ v.spelling ++ ")"
  | .span s => s.spelling
  | .expr e => e.spelling

/-- The spellings of the items of a list. -/
def spellings : List (Value τ) → List String
  | [] => []
  | v :: vs => v.spelling :: spellings vs

end

mutual

/-- The text that a value stands for: tokens and texts as they are, numbers in decimal, and the
parts of lists and pairs one after another. -/
def content : Value τ → String
  | .unit => ""
  | .token t => Token.text t
  | .text s => s
  | .number n => toString n
  | .list vs => contents vs
  | .pair a b => a.content ++ b.content
  | .absent => ""
  | .present v => v.content
  | .span s => s.spelling
  | .expr e => e.display

/-- The contents of the items of a list, one after another. -/
def contents : List (Value τ) → String
  | [] => ""
  | v :: vs => v.content ++ contents vs

end

/-- The size of a value: the number of characters of a text, items of a list or tokens of a span,
two for a pair, nothing for the unit and for an absent value, and one otherwise. -/
def length : Value τ → Nat
  | .unit | .absent => 0
  | .text s => s.length
  | .list vs => vs.length
  | .pair _ _ => 2
  | .span s => s.length
  | _ => 1

end Value

end Packrat
