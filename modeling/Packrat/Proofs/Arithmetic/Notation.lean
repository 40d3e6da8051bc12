import Mathlib.Data.List.Basic
import Packrat.Arithmetic.Rules

/-!
# The notation of arithmetic expressions

The texts that each rule of the grammar derives, with the tree of each derivation:

    expression := parens | sum
    sum        := product ('+' | '-') sum | product
    product    := term ('*' | '/') product | term
    term       := number | parens
    parens     := '(' expression ')'

Spaces and tabs may stand between two tokens. A number is one or more digits with a 64-bit value.

Derivations may be *ordered*: where an expression begins with a parenthesis, the choice of `parens`
is final, and no sum is derived there. A derivation as such may derive one.

* `Derives`: texts and trees.
* `Derives.head`, `Derives.last`: a text begins and ends with a token.
* `Level`: what sums and products have in common.
-/

namespace Packrat.Arithmetic

/-- Spaces and tabs, possibly none. -/
def Blank (b : List Char) : Prop := ∀ a ∈ b, CharClass.space.contains a = true

theorem blank_nil : Blank [] := nofun

theorem not_space_of_isDigit {a : Char} (ha : a.isDigit = true) :
    CharClass.space.contains a = false := by
  rw [Bool.eq_false_iff]
  intro hspace
  rw [CharClass.contains, Bool.or_eq_true, beq_iff_eq, beq_iff_eq] at hspace
  rcases hspace with rfl | rfl <;> cases ha

/-- The rule derives the text, and the derivation has this tree. -/
inductive Derives (ordered : Bool) : Rule → List Char → Expr → Prop where
  | expressionParens {w e} (h : Derives ordered .parens w e) : Derives ordered .expression w e
  | expressionSum {w e} (h : Derives ordered .sum w e)
      (opening : ordered = true → w.head? ≠ some '(') : Derives ordered .expression w e
  | sum {v b op b' w l r} (lhs : Derives ordered .product v l) (hb : Blank b)
      (sign : op ∈ ['+', '-']) (hb' : Blank b') (rhs : Derives ordered .sum w r) :
      Derives ordered .sum (v ++ b ++ op :: (b' ++ w)) (.binary op l r)
  | sumProduct {w e} (h : Derives ordered .product w e) : Derives ordered .sum w e
  | product {v b op b' w l r} (lhs : Derives ordered .term v l) (hb : Blank b)
      (sign : op ∈ ['*', '/']) (hb' : Blank b') (rhs : Derives ordered .product w r) :
      Derives ordered .product (v ++ b ++ op :: (b' ++ w)) (.binary op l r)
  | productTerm {w e} (h : Derives ordered .term w e) : Derives ordered .product w e
  | termNumber {w e} (h : Derives ordered .number w e) : Derives ordered .term w e
  | termParens {w e} (h : Derives ordered .parens w e) : Derives ordered .term w e
  | parens {b w b' e} (hb : Blank b) (inside : Derives ordered .expression w e) (hb' : Blank b') :
      Derives ordered .parens ('(' :: (b ++ w ++ b' ++ [')'])) e
  | number {ds : List Char} {n : Int64} (some : ds ≠ [])
      (digits : ∀ d ∈ ds, d.isDigit = true) (value : n.toInt = Nat.ofDigitChars 10 ds 0) :
      Derives ordered .number ds (.number n)

namespace Derives

variable {ordered : Bool} {r : Rule} {w : List Char} {e : Expr}

/-- What has an ordered derivation has a derivation. -/
theorem unordered (h : Derives ordered r w e) : Derives false r w e := by
  induction h with
  | expressionParens _ ih => exact .expressionParens ih
  | expressionSum _ _ ih => exact .expressionSum ih nofun
  | sum _ hb sign hb' _ ih₁ ih₂ => exact .sum ih₁ hb sign hb' ih₂
  | sumProduct _ ih => exact .sumProduct ih
  | product _ hb sign hb' _ ih₁ ih₂ => exact .product ih₁ hb sign hb' ih₂
  | productTerm _ ih => exact .productTerm ih
  | termNumber _ ih => exact .termNumber ih
  | termParens _ ih => exact .termParens ih
  | parens hb _ hb' ih => exact .parens hb ih hb'
  | number some digits value => exact .number some digits value

/-- A text begins with a digit or a parenthesis. -/
theorem head (h : Derives ordered r w e) : ∃ a x, w = a :: x ∧ (a.isDigit = true ∨ a = '(') := by
  induction h with
  | sum _ _ _ _ _ ih _ | product _ _ _ _ _ ih _ =>
    obtain ⟨a, x, rfl, ha⟩ := ih
    exact ⟨a, _, rfl, ha⟩
  | parens => exact ⟨_, _, rfl, .inr rfl⟩
  | @number ds _ some digits _ =>
    cases ds with
    | nil => exact absurd rfl some
    | cons d ds => exact ⟨d, ds, rfl, .inl (digits d List.mem_cons_self)⟩
  | _ => assumption

theorem ne_nil (h : Derives ordered r w e) : w ≠ [] := by
  obtain ⟨a, x, rfl, -⟩ := h.head
  exact List.cons_ne_nil a x

theorem getLast?_operation {v b b' : List Char} {op : Char} (h : Derives ordered r w e) :
    (v ++ b ++ op :: (b' ++ w)).getLast? = w.getLast? := by
  have split : v ++ b ++ op :: (b' ++ w) = (v ++ b ++ op :: b') ++ w := by simp
  rw [split, List.getLast?_append_of_ne_nil _ h.ne_nil]

/-- A text ends with a digit or a parenthesis. -/
theorem last (h : Derives ordered r w e) : ∀ a ∈ w.getLast?, a.isDigit = true ∨ a = ')' := by
  induction h with
  | sum _ _ _ _ rhs _ ih | product _ _ _ _ rhs _ ih => rwa [rhs.getLast?_operation]
  | parens =>
    intro a ha
    rw [← List.cons_append, List.getLast?_concat] at ha
    cases ha
    exact .inr rfl
  | number some digits _ => exact fun a ha => .inl (digits a (List.mem_of_getLast? ha))
  | _ => assumption

end Derives

/-! ## Sums and products -/

/-- A rule of operations: the rule of its operands, the rule of its operators, and their signs. -/
inductive Level : Rule → Rule → Rule → List Char → Prop where
  | sum : Level .sum .product .sumOperator ['+', '-']
  | product : Level .product .term .productOperator ['*', '/']

namespace Level

variable {ordered : Bool} {r operand operator : Rule} {signs : List Char}

theorem derives (hr : Level r operand operator signs) {v b b' w : List Char} {op : Char}
    {lhs rhs : Expr} (hlhs : Derives ordered operand v lhs) (hb : Blank b) (sign : op ∈ signs)
    (hb' : Blank b') (hrhs : Derives ordered r w rhs) :
    Derives ordered r (v ++ b ++ op :: (b' ++ w)) (.binary op lhs rhs) := by
  cases hr with
  | sum => exact .sum hlhs hb sign hb' hrhs
  | product => exact .product hlhs hb sign hb' hrhs

theorem derives_operand (hr : Level r operand operator signs) {w : List Char} {e : Expr}
    (h : Derives ordered operand w e) : Derives ordered r w e := by
  cases hr with
  | sum => exact .sumProduct h
  | product => exact .productTerm h

theorem body_eq (hr : Level r operand operator signs) :
    body r = .choice (binary operand.call operator.call r.call, operand.call) := by
  cases hr <;> rfl

theorem body_operator (hr : Level r operand operator signs) :
    body operator = .charIn (.ofList signs) := by
  cases hr <;> rfl

end Level

end Packrat.Arithmetic
