import Packrat.Characters
import Packrat.Run
import Packrat.Text.Integer

/-!
# The grammar of arithmetic expressions

Numbers, the four operators and parentheses, with blanks allowed before every token. Products bind
more tightly than sums, and operators of one rank group to the right. An alternative may read again
what the one before it has read, so each rule has a memo table.

* `Rule`: the eight rules.
* `rules`: the grammar, with memo tables or without.
* `parse?`: a whole text.
-/

namespace Packrat.Arithmetic

/-- The rules of the grammar. -/
inductive Rule where
  | expression
  | parens
  | sum
  | product
  | term
  | number
  | sumOperator
  | productOperator
deriving Repr, DecidableEq

namespace Rule

/-- All rules, in the order in which their counts are reported. -/
def all : List Rule :=
  [expression, parens, sum, product, term, number, sumOperator, productOperator]

/-- The name of a rule. -/
def name : Rule → String
  | .expression => "expression"
  | .parens => "parens"
  | .sum => "sum"
  | .product => "product"
  | .term => "term"
  | .number => "number"
  | .sumOperator => "sum_operator"
  | .productOperator => "product_operator"

/-- The rule of that name. -/
def ofName? (name : String) : Option Rule := all.find? (·.name == name)

/-- The name under which a rule is traced, which is also the tag of its memo table. -/
def tag (r : Rule) : String := "expression::" ++ r.name

/-- A reference to a rule. -/
def call (r : Rule) : Parser Char Rule := .rule r

/-- The place of a rule among all rules. -/
def index : Rule → Nat
  | .expression => 0
  | .parens => 1
  | .sum => 2
  | .product => 3
  | .term => 4
  | .number => 5
  | .sumOperator => 6
  | .productOperator => 7

/-- The memo table of a rule, in a grammar whose tables are numbered from `base`. -/
def table (base : Nat) (r : Rule) : Memo := ⟨base + r.index, r.tag⟩

end Rule

/-- The number of memo tables that one grammar has. -/
def tableCount : Nat := 8

/-- The 64-bit numbers. -/
def numberRange : Text.IntegerRange := .signed 64

/-- The number that a text of digits stands for. -/
def readNumber (v : Value Char) : Except String (Value Char) :=
  match numberRange.read v.content.toList with
  | .ok n => .ok (.expr (.number (Int64.ofInt n)))
  | .error e => .error e.message

/-- The expression in a value. -/
def exprOf : Value Char → Expr
  | .expr e => e
  | _ => default

/-- The expression that is made of a left side, an operator and a right side. -/
def binaryOf (v : Value Char) : Value Char :=
  match v.items with
  | [lhs, .token op, rhs] => .expr (.binary op (exprOf lhs) (exprOf rhs))
  | _ => .expr default

/-- Two parsers of expressions with a parser of operators between them, blanks allowed before each. -/
def binary (lhs op rhs : Parser Char Rule) : Parser Char Rule :=
  .adapt (.map binaryOf)
    (.phrase (Parser.builtIn "bind" lhs, Parser.builtIn "bind" op, Parser.builtIn "bind" rhs))

/-- What each rule says. -/
def body : Rule → Parser Char Rule
  | .expression => .choice (Rule.parens.call, Rule.sum.call)
  | .parens => .enclosedBy '(' ')' Rule.expression.call
  | .sum =>
    .choice (binary Rule.product.call Rule.sumOperator.call Rule.sum.call, Rule.product.call)
  | .product =>
    .choice (binary Rule.term.call Rule.productOperator.call Rule.product.call, Rule.term.call)
  | .term => .choice (Rule.number.call, Rule.parens.call)
  | .number => .mapExcept readNumber (.run1 .digit)
  | .sumOperator => .charIn "+-"
  | .productOperator => .charIn "*/"

/-- The grammar, traced rule by rule: with memo tables numbered from a base, or without any. -/
def rules (base? : Option Nat) : Grammar Char Rule := fun r =>
  .named r.tag (match base? with
    | some base => .memoized (r.table base) (body r)
    | none => body r)

/-- A whole text: an expression, after which white space is allowed. -/
def wholeText : Parser Char Rule := .toEnd (.keepLeft Rule.expression.call (.run0 .multispace))

/-- The fuel that is enough for a text of `size` characters. -/
def fuelFor (size : Nat) : Nat := 256 * (size + 2)

/-- The expression that a whole text stands for, or the failure. Without an answer the fuel was not
enough. -/
def parse? (text : String) : Option (Except (Failure Char) Expr) :=
  let buffer := Buffer.ofArray 0 text.toList.toArray
  match wholeText.run (rules (some 0)) (fuelFor buffer.size) .plain (.ofBuffer buffer) ∅ with
  | none => none
  | some (.ok m, _) => some (.ok (exprOf m.value))
  | some (.error f, _) => some (.error f)

end Packrat.Arithmetic
