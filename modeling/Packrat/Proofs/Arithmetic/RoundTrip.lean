import Packrat.Proofs.Arithmetic.Completeness

/-!
# Expressions that are read back

The display of an expression has every operation in parentheses, so the notation derives it with the
expression as its tree. Whether the derivation is ordered depends on the left operands alone. A number
on the left begins the text inside the parentheses with a digit. An operation on the left begins it
with another parenthesis, with which the choice of `parens` is made before the sign is seen.

* `Readable`: expressions that can come of a text.
* `RightNested`: expressions with numbers as their left operands.
* `ordered_display_iff`: which displays have ordered derivations.
* `parse?_display`: which expressions are read back.
-/

namespace Packrat.Arithmetic

variable {ordered : Bool} {r : Rule} {w : List Char} {e : Expr}

/-! ## Expressions and their displays -/

/-- No number is negative, and every sign is one of the four operators. -/
inductive Readable : Expr → Prop where
  | number {n : Int64} (h : 0 ≤ n.toInt) : Readable (.number n)
  | binary {op lhs rhs} (sign : op ∈ ['+', '-', '*', '/']) (left : Readable lhs)
      (right : Readable rhs) : Readable (.binary op lhs rhs)

/-- Every left operand is a number. -/
inductive RightNested : Expr → Prop where
  | number {n : Int64} : RightNested (.number n)
  | binary {op n rhs} (right : RightNested rhs) : RightNested (.binary op (.number n) rhs)

theorem Derives.readable (h : Derives ordered r w e) : Readable e := by
  induction h with
  | sum _ _ sign _ _ ih₁ ih₂ =>
    refine .binary ?_ ih₁ ih₂
    simp only [List.mem_cons, List.not_mem_nil, or_false] at sign
    rcases sign with rfl | rfl <;> decide
  | product _ _ sign _ _ ih₁ ih₂ =>
    refine .binary ?_ ih₁ ih₂
    simp only [List.mem_cons, List.not_mem_nil, or_false] at sign
    rcases sign with rfl | rfl <;> decide
  | number _ _ value => exact .number (by omega)
  | _ => assumption

theorem display_number {n : Int64} (h : 0 ≤ n.toInt) :
    (Expr.number n).display.toList = Nat.toDigits 10 n.toInt.toNat := by
  obtain ⟨k, hk⟩ := Int.eq_ofNat_of_zero_le h
  rw [Expr.display, hk, Int.toNat_natCast]
  change (Nat.repr k).toList = _
  rw [Nat.repr_eq_ofList_toDigits, String.toList_ofList]

/-- What stands inside the parentheses of an operation. -/
def inside (op : Char) (lhs rhs : Expr) : List Char :=
  lhs.display.toList ++ [' '] ++ op :: ([' '] ++ rhs.display.toList)

theorem display_binary (op : Char) (lhs rhs : Expr) :
    (Expr.binary op lhs rhs).display.toList = '(' :: ([] ++ inside op lhs rhs ++ [] ++ [')']) := by
  simp [Expr.display, inside]

/-- The rule that derives the display of an expression. -/
def displayRule : Expr → Rule
  | .number _ => .number
  | .binary .. => .parens

theorem derives_term (h : Derives ordered (displayRule e) w e) : Derives ordered .term w e := by
  cases e with
  | number n => exact .termNumber h
  | binary op lhs rhs => exact .termParens h

theorem derives_displayRule {e' : Expr} (h : Derives ordered .term w e')
    (h' : Derives false (displayRule e) w e) : Derives ordered (displayRule e) w e' := by
  cases e with
  | number n =>
    cases h with
    | termNumber h => exact h
    | termParens h => exact absurd (h.head?_parens []) (h'.head?_number [])
  | binary op lhs rhs =>
    cases h with
    | termNumber h => exact absurd (h'.head?_parens []) (h.head?_number [])
    | termParens h => exact h

/-! ## The inside of an operation -/

theorem blank_space : Blank [' '] := by
  simp [Blank, CharClass.contains]

theorem sign_of_level {op : Char} (sign : op ∈ ['+', '-', '*', '/']) :
    op ∈ ['+', '-'] ∨ op ∈ ['*', '/'] := by
  simpa [or_assoc] using sign

section

variable {op : Char} {lhs rhs : Expr}

theorem derives_inside_sum (sign : op ∈ ['+', '-', '*', '/'])
    (left : Derives ordered (displayRule lhs) lhs.display.toList lhs)
    (right : Derives ordered (displayRule rhs) rhs.display.toList rhs) :
    Derives ordered .sum (inside op lhs rhs) (.binary op lhs rhs) := by
  have left := derives_term left
  have right : Derives ordered .product rhs.display.toList rhs := .productTerm (derives_term right)
  rcases sign_of_level sign with sign | sign
  · exact .sum (.productTerm left) blank_space sign blank_space (.sumProduct right)
  · exact .sumProduct (.product left blank_space sign blank_space right)

/-- The inside goes on behind its left operand, so it has no parentheses around it. -/
theorem not_parens_inside {e' : Expr} (sign : op ∈ ['+', '-', '*', '/'])
    (left : Derives false (displayRule lhs) lhs.display.toList lhs) :
    ¬ Derives ordered .parens (inside op lhs rhs) e' := by
  intro h
  have left := derives_term left
  rcases sign_of_level sign with sign | sign
  · exact Level.sum.not_operand (.productTerm left) blank_space sign (.productTerm (.termParens h))
  · exact Level.product.not_operand left blank_space sign (.termParens h)

theorem derives_right (sign : op ∈ ['+', '-', '*', '/'])
    (left : Derives false (displayRule lhs) lhs.display.toList lhs)
    (right : Derives false (displayRule rhs) rhs.display.toList rhs)
    (h : Derives ordered .sum (inside op lhs rhs) e) :
    Derives ordered (displayRule rhs) rhs.display.toList rhs := by
  have left := derives_term left
  have term := derives_term right
  have product : Derives false .product rhs.display.toList rhs := .productTerm term
  have onRight : Derives ordered .product rhs.display.toList rhs := by
    rcases sign_of_level sign with sign | sign
    · have parts := Level.sum.derives_parts (.productTerm left) blank_space sign blank_space
        (.sumProduct product) h
      exact Level.sum.derives_as_operand parts.2 product
    · have operand := Level.sum.derives_as_operand h
        (.product left blank_space sign blank_space product)
      exact (Level.product.derives_parts left blank_space sign blank_space product operand).2
  exact derives_displayRule (Level.product.derives_as_operand onRight term) right

end

/-! ## Displays are derived -/

theorem derives_display_number {n : Int64} (h : 0 ≤ n.toInt) :
    Derives ordered .number (Expr.number n).display.toList (.number n) := by
  rw [display_number h]
  refine .number Nat.toDigits_ne_nil ?_ ?_
  · exact fun d hd => Nat.isDigit_of_mem_toDigits (by decide) (by decide) hd
  · rw [Nat.ofDigitChars_ten_toDigits, Int.toNat_of_nonneg h]

/-- A display has a derivation, which is ordered if all left operands are numbers. -/
theorem derives_display (h : Readable e) (nested : ordered = true → RightNested e) :
    Derives ordered (displayRule e) e.display.toList e := by
  induction h with
  | number h => exact derives_display_number h
  | @binary op lhs rhs sign _ _ ih₁ ih₂ =>
    have left := ih₁ fun h => by
      cases nested h
      exact .number
    have right := ih₂ fun h => by
      cases nested h with
      | binary right => exact right
    have opening : ordered = true → (inside op lhs rhs).head? ≠ some '(' := by
      intro h
      cases nested h
      rw [inside, List.append_assoc]
      exact left.head?_number _
    rw [display_binary]
    exact .parens blank_nil (.expressionSum (derives_inside_sum sign left right) opening) blank_nil

/-- By induction on the expression. An operation on the left begins the inside with a parenthesis,
where only parentheses around the whole inside would be in order. -/
theorem rightNested_of_derives (h : Readable e)
    (ordered : Derives true (displayRule e) e.display.toList e) : RightNested e := by
  induction h with
  | number => exact .number
  | @binary op lhs rhs sign hlhs hrhs _ ih₂ =>
    have left : Derives false _ lhs.display.toList lhs := derives_display hlhs nofun
    have right : Derives false _ rhs.display.toList rhs := derives_display hrhs nofun
    rw [display_binary] at ordered
    have whole : Derives false .expression (inside op lhs rhs) (.binary op lhs rhs) :=
      .expressionSum (derives_inside_sum sign left right) nofun
    cases derives_inside blank_nil whole blank_nil ordered with
    | expressionParens h => exact absurd h (not_parens_inside sign left)
    | expressionSum h opening =>
      cases lhs with
      | number n => exact .binary (ih₂ (derives_right sign left right h))
      | binary op' lhs' rhs' =>
        refine absurd ?_ (opening rfl)
        rw [inside, display_binary]
        rfl

/-- The display of an expression has an ordered derivation exactly if all left operands are
numbers. -/
theorem ordered_display_iff (h : Readable e) :
    Derives true .expression e.display.toList e ↔ RightNested e := by
  constructor
  · intro ordered
    cases e with
    | number n => exact .number
    | binary op lhs rhs =>
      cases ordered with
      | expressionParens ordered => exact rightNested_of_derives h ordered
      | expressionSum _ opening =>
        refine absurd ?_ (opening rfl)
        rw [display_binary]
        rfl
  · intro nested
    have ordered : Derives true _ e.display.toList e := derives_display h fun _ => nested
    cases e with
    | number n =>
      exact .expressionSum (.sumProduct (.productTerm (.termNumber ordered)))
        fun _ => by simpa using ordered.head?_number []
    | binary op lhs rhs => exact .expressionParens ordered

theorem derives_display_expression (h : Readable e) :
    Derives false .expression e.display.toList e :=
  derives_expression_iff.mpr (.sumProduct (.productTerm (derives_term (derives_display h nofun))))

/-- An expression that came of a text is read back from its display if its left operands are all
numbers. If one of them is an operation, the display is refused. -/
theorem parse?_display {text : String} (h : parse? text = some (.ok e)) :
    (RightNested e → parse? e.display = some (.ok e)) ∧
      (¬ RightNested e → ∃ f, parse? e.display = some (.error f)) := by
  obtain ⟨_, _, _, -, -, -, derived, -⟩ := parse?_iff_exists.mp h
  have readable := derived.readable
  constructor
  · intro nested
    exact parse?_of_ordered ((ordered_display_iff readable).mpr nested)
  · intro nested
    exact parse?_of_not_ordered (derives_display_expression readable)
      (mt (ordered_display_iff readable).mp nested)

/-- One plus two times seven. -/
def productOnRight : Expr := .binary '+' (.number 1) (.binary '*' (.number 2) (.number 7))

/-- One times seven, plus one. -/
def productOnLeft : Expr := .binary '+' (.binary '*' (.number 1) (.number 7)) (.number 1)

theorem parse?_productOnLeft : parse? "1*7+1" = some (.ok productOnLeft) := by
  decide +kernel

theorem parse?_display_of_products :
    parse? "1+2*7" = some (.ok productOnRight) ∧
      parse? productOnRight.display = some (.ok productOnRight) ∧
      parse? "1*7+1" = some (.ok productOnLeft) ∧
      ∃ f, parse? productOnLeft.display = some (.error f) := by
  have right : parse? "1+2*7" = some (.ok productOnRight) := by decide +kernel
  exact ⟨right, (parse?_display right).1 (.binary (.binary .number)), parse?_productOnLeft,
    (parse?_display parse?_productOnLeft).2 nofun⟩

/-- Not every expression that came of a text is read back. -/
theorem not_forall_parse?_display : ¬ ∀ text e, parse? text = some (.ok e) →
    parse? e.display = some (.ok e) := by
  intro h
  have refused : parse? productOnLeft.display ≠ some (.ok productOnLeft) := by decide +kernel
  exact refused (h _ _ parse?_productOnLeft)

end Packrat.Arithmetic
