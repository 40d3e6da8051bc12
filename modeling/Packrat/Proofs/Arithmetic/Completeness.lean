import Packrat.Proofs.Arithmetic.Totality
import Packrat.Proofs.Arithmetic.Unambiguity

/-!
# Every ordered derivation is read

A rule reads the text of an ordered derivation where it comes next, and stops behind it if what
follows cannot go on with it. In the alternative of an operation the rule of the operands is then
tried on the whole text, and the sign is missing, so the text is read by the other alternative.

So the texts that `parse?` accepts are those of ordered derivations. A derivation that is not ordered
has an expression that begins with a parenthesis and goes on behind it, and its text is refused.

* `complete`: what an ordered derivation derives is read.
* `parse?_iff_exists`: the texts that are read as a whole.
* `parse?_of_derives`: which derivations of the notation are read.
-/

namespace Packrat.Arithmetic

open Packrat.Parser

variable {base? : Option Nat} {c d : Cursor Char} {r : Rule} {b w rest : List Char} {e : Expr}

/-! ## Derivations are read -/

theorem skip_blanks {x : List Char} (hc : c.remaining = b ++ x) (hb : Blank b)
    (hx : ∀ a ∈ x.head?, CharClass.space.contains a = false) :
    c.Over b c.pastBlanks ∧ c.pastBlanks.remaining = x :=
  (Cursor.over_past_of_append hc hb hx).2

theorem skip_sign {a : Char} {x : List Char} (hc : c.remaining = b ++ a :: x) (hb : Blank b)
    (ha : CharClass.space.contains a = false) :
    c.pastBlanks.remaining.head? = some a ∧ c.Over (b ++ [a]) c.pastBlanks.advance ∧
      c.pastBlanks.advance.remaining = x := by
  obtain ⟨blanks, hrest⟩ := skip_blanks hc hb fun a' ha' => by
    cases ha'
    exact ha
  have head : c.pastBlanks.remaining.head? = some a := by
    rw [hrest]
    rfl
  have reach := blanks.append (Cursor.over_advance head)
  exact ⟨head, reach, reach.remaining_eq (by rw [hc]; simp)⟩

/-- Wherever blanks and then the text come next, the rule reads both and gives the tree. Blanks in
front of a number alone are not skipped. -/
def Complete (base? : Option Nat) (r : Rule) (w : List Char) (e : Expr) : Prop :=
  ∀ (c : Cursor Char) b rest, c.remaining = b ++ (w ++ rest) → Blank b →
    (b = [] ∨ ∃ a ∈ w, a.isDigit = false) → Stops r rest →
    ∃ d, c.Over (b ++ w) d ∧ r.call.Gives (rules base?) c (.ok ⟨d, .expr e⟩)

theorem complete_number {ds : List Char} {n : Int64} (some : ds ≠ [])
    (digits : ∀ d ∈ ds, d.isDigit = true) (value : n.toInt = Nat.ofDigitChars 10 ds 0) :
    Complete base? .number ds (.number n) := by
  intro c b rest hc hb bare stops
  have hb : b = [] := by
    rcases bare with hb | ⟨a, ha, hdigit⟩
    · exact hb
    · rw [digits a ha] at hdigit
      cases hdigit
  subst hb
  rw [List.nil_append] at hc ⊢
  obtain ⟨htake, reach, -⟩ := Cursor.over_past_of_append hc digits stops.digit
  refine ⟨_, reach, gives_call.mpr (ok_mapExcept.mpr ⟨_, ok_run1.mpr ⟨?_, rfl, rfl⟩, ?_⟩)⟩
  · exact fun h => some (htake.symm.trans h)
  · rw [show c.remaining.takeWhile CharClass.digit.contains = ds from htake]
    exact (readNumber_eq_ok some digits).mpr ⟨n, value, rfl⟩

theorem complete_parens {b₁ b₂ : List Char} (hb₁ : Blank b₁)
    (inside : Derives true .expression w e) (hb₂ : Blank b₂)
    (ih : Complete base? .expression w e) :
    Complete base? .parens ('(' :: (b₁ ++ w ++ b₂ ++ [')'])) e := by
  intro c b rest hc hb bare stops
  have hc : c.remaining = b ++ '(' :: (b₁ ++ (w ++ (b₂ ++ ')' :: rest))) := by
    rw [hc]
    simp
  obtain ⟨opening, reach₁, hinside⟩ := skip_sign hc hb rfl
  obtain ⟨reach₂, hinside⟩ := skip_blanks hinside hb₁ (inside.head_not_space _)
  have closes : Stops .expression (b₂ ++ ')' :: rest) :=
    stops_of_character hb₂ rfl rfl (by decide)
  obtain ⟨e₁, reach₃, given⟩ := ih _ [] _ hinside blank_nil (.inl rfl) closes
  obtain ⟨closing, reach₄, -⟩ := skip_sign (reach₃.remaining_eq hinside) hb₂ rfl
  have whole := (reach₁.append reach₂).append (reach₃.append reach₄)
  refine ⟨_, ?_, gives_call.mpr (ok_enclosedBy.mpr ⟨e₁, opening, given, closing, rfl⟩)⟩
  simpa using whole

theorem Level.complete_operation {operand operator : Rule} {signs v b₁ b₂ : List Char} {op : Char}
    {lhs rhs : Expr} (hr : Level r operand operator signs) (hlhs : Derives true operand v lhs)
    (hb₁ : Blank b₁) (sign : op ∈ signs) (hb₂ : Blank b₂) (hrhs : Derives true r w rhs)
    (ih₁ : Complete base? operand v lhs) (ih₂ : Complete base? r w rhs) :
    Complete base? r (v ++ b₁ ++ op :: (b₂ ++ w)) (.binary op lhs rhs) := by
  intro c b rest hc hb bare stops
  obtain ⟨hspace, hdigit, hcont⟩ := hr.ends_operand sign
  have hc : c.remaining = b ++ (v ++ (b₁ ++ op :: (b₂ ++ (w ++ rest)))) := by
    rw [hc]
    simp
  obtain ⟨reach₁, hleft⟩ := skip_blanks hc hb (hlhs.head_not_space _)
  obtain ⟨e₁, reach₂, left⟩ := ih₁ _ [] _ hleft blank_nil (.inl rfl)
    (stops_of_character hb₁ hspace hdigit hcont)
  obtain ⟨head, reach₃, hsign⟩ := skip_sign (reach₂.remaining_eq hleft) hb₁ hspace
  obtain ⟨reach₄, hright⟩ := skip_blanks hsign hb₂ (hrhs.head_not_space _)
  obtain ⟨d, reach₅, right⟩ := ih₂ _ [] _ hright blank_nil (.inl rfl) stops
  have whole := (reach₁.append reach₂).append (reach₃.append (reach₄.append reach₅))
  refine ⟨d, ?_, hr.ok_call.mpr (.inl ⟨e₁, op, _, _, left, sign, head, right, rfl⟩)⟩
  simpa using whole

theorem Level.complete_operand {operand operator : Rule} {signs : List Char}
    (hr : Level r operand operator signs) (h : Derives true operand w e)
    (ih : Complete base? operand w e) : Complete base? r w e := by
  intro c b rest hc hb bare stops
  have stops' : Stops operand rest := stops.mono hr.continuing_subset
  obtain ⟨reach₁, hleft⟩ := skip_blanks hc hb (h.head_not_space _)
  -- as a left side the operand is read in vain, for want of a sign, and then once more
  obtain ⟨e₁, reach₂, left⟩ := ih _ [] _ hleft blank_nil (.inl rfl) stops'
  have missing : operator.call.Fails (rules base?) e₁.pastBlanks := by
    rw [hr.fails_operator, Cursor.pastBlanks, Cursor.remaining_past, reach₂.remaining_eq hleft]
    exact fun a ha hmem => stops.sign a ha (hr.signs_subset hmem)
  have fails : (binary operand.call operator.call r.call).Fails (rules base?) c :=
    fails_binary.mpr (.inr ⟨_, left, .inl missing⟩)
  obtain ⟨d, reach, given⟩ := ih c b rest hc hb bare stops'
  exact ⟨d, reach, hr.ok_call.mpr (.inr ⟨fails, given⟩)⟩

theorem complete_term {ordered : Bool} (h : Derives ordered .parens w e)
    (ih : Complete base? .parens w e) : Complete base? .term w e := by
  intro c b rest hc hb bare stops
  obtain ⟨d, reach, given⟩ := ih c b rest hc hb bare (stops.mono (List.Subset.refl _))
  have noDigit : ∀ a ∈ c.remaining.head?, CharClass.digit.contains a = false := by
    rw [hc]
    intro a ha
    cases b with
    | nil =>
      cases h
      cases ha
      rfl
    | cons a₀ b =>
      cases ha
      exact hb.not_isDigit List.mem_cons_self
  have fails : Rule.number.call.Fails (rules base?) c := by
    refine fails_call.mpr (fails_mapExcept_of_fails (fails_run1.mpr ?_))
    exact takeWhile_eq_nil_of_head noDigit
  exact ⟨d, reach, gives_call.mpr (ok_choice.mpr (.inr ⟨fails, given⟩))⟩

theorem complete_expression (h : Derives true .sum w e) (opening : w.head? ≠ some '(')
    (ih : Complete base? .sum w e) : Complete base? .expression w e := by
  intro c b rest hc hb bare stops
  obtain ⟨d, reach, given⟩ := ih c b rest hc hb bare (stops.mono (List.Subset.refl _))
  obtain ⟨-, hskip⟩ := skip_blanks hc hb (h.head_not_space _)
  -- no parenthesis opens, so `parens` leaves the choice to the sum
  have fails : Rule.parens.call.Fails (rules base?) c := by
    refine fails_call.mpr (fails_enclosedBy_of_head ?_)
    rwa [hskip, List.head?_append_of_ne_nil _ h.ne_nil]
  exact ⟨d, reach, gives_call.mpr (ok_choice.mpr (.inr ⟨fails, given⟩))⟩

/-- By induction on the derivation: wherever the text of an ordered derivation comes next, the rule
reads it. -/
theorem complete (h : Derives true r w e) (base? : Option Nat) : Complete base? r w e := by
  induction h with
  | expressionParens _ ih =>
    intro c b rest hc hb bare stops
    obtain ⟨d, reach, given⟩ := ih c b rest hc hb bare (stops.mono (List.nil_subset _))
    exact ⟨d, reach, gives_call.mpr (ok_choice.mpr (.inl given))⟩
  | expressionSum h opening ih => exact complete_expression h (opening rfl) ih
  | sum lhs hb sign hb' rhs ih₁ ih₂ =>
    exact Level.sum.complete_operation lhs hb sign hb' rhs ih₁ ih₂
  | sumProduct h ih => exact Level.sum.complete_operand h ih
  | product lhs hb sign hb' rhs ih₁ ih₂ =>
    exact Level.product.complete_operation lhs hb sign hb' rhs ih₁ ih₂
  | productTerm h ih => exact Level.product.complete_operand h ih
  | termNumber _ ih =>
    intro c b rest hc hb bare stops
    obtain ⟨d, reach, given⟩ := ih c b rest hc hb bare (stops.mono (List.Subset.refl _))
    exact ⟨d, reach, gives_call.mpr (ok_choice.mpr (.inl given))⟩
  | termParens h ih => exact complete_term h ih
  | parens hb inside hb' ih => exact complete_parens hb inside hb' ih
  | number some digits value => exact complete_number some digits value

/-! ## Whole texts -/

/-- A whole text is read if it is an ordered derivation with blanks in front of it and white space
behind it, where blanks in front of a number alone are too many. -/
theorem parse?_iff_exists {text : String} : parse? text = some (.ok e) ↔
    ∃ b w x, text.toList = b ++ (w ++ x) ∧ Blank b ∧ (b = [] ∨ ∃ a ∈ w, a.isDigit = false) ∧
      Derives true .expression w e ∧ ∀ a ∈ x, CharClass.multispace.contains a = true := by
  rw [parse?_eq_ok]
  constructor
  · rintro ⟨d, v, hexpr, hspace, rfl⟩
    obtain ⟨b, w, e, read, rfl⟩ := exists_reading (by decide) hexpr
    have htext := read.between.tokens
    rw [remaining_startOf, List.append_assoc] at htext
    exact ⟨b, w, d.remaining, htext, read.blank, read.bare, read.derives, hspace⟩
  · rintro ⟨b, w, x, htext, hb, bare, h, hx⟩
    have hstart : (startOf text).remaining = b ++ (w ++ x) := by rw [remaining_startOf, htext]
    obtain ⟨d, reach, given⟩ :=
      complete h (some 0) _ b x hstart hb bare (stops_of_multispace hx)
    have hrest : d.remaining = x := reach.remaining_eq (by rw [hstart, List.append_assoc])
    exact ⟨d, _, given, by rwa [hrest], rfl⟩

/-- No white space is at the ends of a text that a rule derives. -/
theorem Derives.eq_of_trim {ordered : Bool} {w' x : List Char} (h : Derives ordered r w e)
    (hb : Blank b) (hx : ∀ a ∈ x, CharClass.multispace.contains a = true)
    (same : w = b ++ (w' ++ x)) : b = [] ∧ w' = w := by
  have hb : b = [] := by
    cases b with
    | nil => rfl
    | cons a b =>
      have hnot := h.head_not_space [] a (by rw [same]; rfl)
      rw [hb a List.mem_cons_self] at hnot
      cases hnot
  have hx : x = [] := by
    rcases List.eq_nil_or_concat x with hx | ⟨y, a, rfl⟩
    · exact hx
    · have hlast := h.last a (by rw [same]; simp)
      have hspace := hx a (by simp)
      simp only [CharClass.contains, Bool.or_eq_true, beq_iff_eq] at hspace
      rcases hspace with ((rfl | rfl) | rfl) | rfl <;> rcases hlast with hlast | hlast <;>
        cases hlast
  subst hb hx
  simpa using same.symm

theorem parse?_of_ordered {text : String} (h : Derives true .expression text.toList e) :
    parse? text = some (.ok e) :=
  parse?_iff_exists.mpr ⟨[], text.toList, [], by simp, blank_nil, .inl rfl, h, nofun⟩

/-- Whatever were read of a text that has a derivation would be the tree of an ordered one. -/
theorem parse?_of_not_ordered {text : String} (h : Derives false .expression text.toList e)
    (unordered : ¬ Derives true .expression text.toList e) :
    ∃ f, parse? text = some (.error f) := by
  obtain ⟨r, -, hparse⟩ := parse?_eq text
  cases r with
  | error f => exact ⟨f, hparse⟩
  | ok m =>
    obtain ⟨b, w, x, htext, hb, -, ordered, hx⟩ := parse?_iff_exists.mp hparse
    obtain ⟨-, rfl⟩ := h.eq_of_trim hb hx htext
    rw [h.unambiguous ordered] at unordered
    exact absurd ordered unordered

/-- A text that the notation derives is read, and gives the tree of the derivation, if the derivation
is ordered. Otherwise it is refused. -/
theorem parse?_of_derives {text : String} (h : Derives false .expression text.toList e) :
    (Derives true .expression text.toList e → parse? text = some (.ok e)) ∧
      (¬ Derives true .expression text.toList e → ∃ f, parse? text = some (.error f)) :=
  ⟨parse?_of_ordered, parse?_of_not_ordered h⟩

theorem derives_digit {ordered : Bool} (a : Char) (digit : a.isDigit = true) (n : Int64)
    (value : n.toInt = Nat.ofDigitChars 10 [a] 0) : Derives ordered .term [a] (.number n) :=
  .termNumber (.number (List.cons_ne_nil a []) (by simpa using digit) value)

/-- A product with a parenthesis on its right. -/
theorem derives_product (ordered : Bool) : Derives ordered .expression "2*(3 - 1)".toList
    (.binary '*' (.number 2) (.binary '-' (.number 3) (.number 1))) := by
  have two : Derives ordered .term ['2'] (.number 2) := derives_digit '2' rfl 2 rfl
  have three : Derives ordered .term ['3'] (.number 3) := derives_digit '3' rfl 3 rfl
  have one : Derives ordered .term ['1'] (.number 1) := derives_digit '1' rfl 1 rfl
  have blank : Blank [' '] := by simp [Blank, CharClass.contains]
  have difference : Derives ordered .sum ['3', ' ', '-', ' ', '1'] _ :=
    .sum (.productTerm three) blank (by decide) blank (.sumProduct (.productTerm one))
  have inside : Derives ordered .parens ['(', '3', ' ', '-', ' ', '1', ')'] _ :=
    .parens blank_nil (.expressionSum difference fun _ => by decide) blank_nil
  have whole : Derives ordered .product ['2', '*', '(', '3', ' ', '-', ' ', '1', ')'] _ :=
    .product two blank_nil (by decide) blank_nil (.productTerm (.termParens inside))
  exact .expressionSum (.sumProduct whole) fun _ => by decide

/-- A sum with a parenthesis on its left. -/
theorem derives_sum : Derives false .expression "(1)+2".toList
    (.binary '+' (.number 1) (.number 2)) := by
  have one : Derives false .term ['1'] (.number 1) := derives_digit '1' rfl 1 rfl
  have two : Derives false .term ['2'] (.number 2) := derives_digit '2' rfl 2 rfl
  have inside : Derives false .parens ['(', '1', ')'] _ := .parens blank_nil
    (.expressionSum (.sumProduct (.productTerm one)) nofun) blank_nil
  have whole : Derives false .sum ['(', '1', ')', '+', '2'] _ :=
    .sum (.productTerm (.termParens inside)) blank_nil (by decide) blank_nil
      (.sumProduct (.productTerm two))
  exact .expressionSum whole nofun

theorem not_parse?_sum : parse? "(1)+2" ≠ some (.ok (.binary '+' (.number 1) (.number 2))) := by
  decide +kernel

/-- The product is read. The sum is not, for no derivation of it is ordered. -/
theorem parse?_of_derives_of_parens :
    parse? "2*(3 - 1)" =
        some (.ok (.binary '*' (.number 2) (.binary '-' (.number 3) (.number 1)))) ∧
      ∃ f, parse? "(1)+2" = some (.error f) := by
  have read := parse?_of_derives (derives_product false)
  have refused := parse?_of_derives derives_sum
  exact ⟨read.1 (derives_product true), refused.2 fun h => not_parse?_sum (refused.1 h)⟩

/-- Not every text that the notation derives is read. -/
theorem not_forall_parse?_of_derives : ¬ ∀ (text : String) e,
    Derives false .expression text.toList e → parse? text = some (.ok e) :=
  fun h => not_parse?_sum (h _ _ derives_sum)

end Packrat.Arithmetic
