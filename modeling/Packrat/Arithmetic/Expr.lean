import Packrat.Text.Quoted

/-!
# Arithmetic expressions

Trees of 64-bit numbers and binary operators, their value and their two texts.

* `Expr.evaluate`: the value, absent where an operation has no 64-bit result.
* `Expr.display`: the expression fully parenthesised.
-/

namespace Packrat.Arithmetic

/-- A number, or two expressions joined by the operator `op`. -/
inductive Expr where
  | number (n : Int64)
  | binary (op : Char) (lhs rhs : Expr)
deriving Repr, DecidableEq

/-- The 64-bit number equal to `n`, if there is one. -/
def int64? (n : Int) : Option Int64 :=
  if Int64.minValue.toInt ≤ n ∧ n ≤ Int64.maxValue.toInt then some (Int64.ofInt n) else none

/-- The exact result of an operator on integers. Division drops the fraction and has no result for a
divisor of zero; a sign that is no operator has none either. -/
def calculate? (op : Char) (l r : Int) : Option Int :=
  match op with
  | '+' => some (l + r)
  | '-' => some (l - r)
  | '*' => some (l * r)
  | '/' => if r = 0 then none else some (Int.tdiv l r)
  | _ => none

namespace Expr

instance : Inhabited Expr := ⟨.number 0⟩

/-- The value of an expression. There is none if some operation has no result or one that does not
fit into 64 bits. -/
def evaluate : Expr → Option Int64
  | .number n => some n
  | .binary op lhs rhs =>
    match lhs.evaluate, rhs.evaluate with
    | some l, some r => (calculate? op l.toInt r.toInt).bind int64?
    | _, _ => none

/-- The expression with every operation in parentheses. -/
def display : Expr → String
  | .number n => toString n.toInt
  | .binary op lhs rhs => "(" ++ lhs.display ++ " " ++ String.singleton op ++ " " ++ rhs.display ++ ")"

/-- The tree with its constructors and fields named. -/
def spelling : Expr → String
  | .number n => "Number(" ++ toString n.toInt ++ ")"
  | .binary op lhs rhs =>
    "Binary \x7b op: " ++ Text.quoteChar op ++ ", lhs: " ++ lhs.spelling ++ ", rhs: " ++
      rhs.spelling ++ " \x7d"

end Expr

end Packrat.Arithmetic
